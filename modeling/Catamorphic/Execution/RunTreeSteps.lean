import Catamorphic.Execution.RunTree
import Mathlib.Data.List.Nodup
import Mathlib.Data.List.Perm.Subperm

/-!
# What the coordinator's operations do to the tree

Each operation is a transaction that ends attempts and runs, starts others, and tells the ends
up the tree. What would be left untold, or working, is what its condition excludes: an attempt
that waits for a child is completed or failed by nobody but the child's end.
-/

namespace Catamorphic.Execution.Coordinator

open Runs List Option Bool

variable {w w' w₀ : World} {T T' O O' : RunId → Prop} {r c p : RunId} {a : AttemptId}
  {run run' : Run} {attempt : Attempt} {result : World × Option Ended} {output : Json}
  {error : String}

/-- Between transactions: every end is told, and all work is waited for. -/
structure Settled (w : World) : Prop extends Base w, Linked (fun _ => False) (fun _ => False) w

theorem Settled.tree (h : Settled w) : Tree (fun _ => False) (fun _ => False) w w :=
  ⟨h.toBase, h.toLinked, .refl w, fun _ _ _ => id⟩

theorem Tree.settled (h : Tree (fun _ => False) (fun _ => False) w₀ w) : Settled w :=
  ⟨h.toBase, h.toLinked⟩

theorem Tree.rebase (h : Tree T O w₀ w) : Tree T O w w :=
  ⟨h.toBase, h.toLinked, .refl w, fun _ _ _ => id⟩

variable {statuses : RunStatus → Bool}

/-! ## Operations on one run -/

theorem updateRun_cases {set : Run → Run} {motive : World → Prop} (hsame : motive w)
    (hset : ∀ run, w.runs r = some run → statuses run.status = true →
      motive (w.setStatus r (set run))) : motive (w.updateRun r statuses set) := by
  unfold World.updateRun
  split
  · rename_i run hrun
    split
    · rename_i hstatus
      exact hset run hrun hstatus
    · exact hsame
  · exact hsame

section

variable (h : Tree T O w₀ w)
include h

/-- An active run gets another active status. -/
theorem Tree.setActive (hrun : w.runs r = some run)
    (hisActive : run.status.isActive = true) (hisActive' : run'.status.isActive = true)
    (hplace : run'.place = run.place) (hactive : run'.activeAttempt = run.activeAttempt)
    (hprevious : run'.operatorPausePrevious = run.operatorPausePrevious) :
    Tree T O w₀ (w.setStatus r run') := by
  have hterminal := isTerminal_of_isActive hisActive
  have hterminal' := isTerminal_of_isActive hisActive'
  refine h.setStatus hrun ⟨hplace, .inl hactive, .inr ⟨hactive, hterminal'⟩, ?_, ?_, ?_, ?_⟩
    (fun _ => id) fun hover => ?_
  · intro hcanceling
    rw [hcanceling] at hisActive'
    cases hisActive'
  · intro hpaused
    rw [hpaused] at hisActive'
    cases hisActive'
  · exact fun status phase hsome => .inl (hprevious ▸ hsome)
  · intro hover
    rw [hterminal] at hover
    cases hover
  · rw [hterminal'] at hover
    cases hover

theorem Tree.setWaiting (r : RunId) (set : Run → Run)
    (hset : ∀ run, (set run).status.isActive = true ∧ (set run).place = run.place ∧
      (set run).activeAttempt = run.activeAttempt ∧
      (set run).operatorPausePrevious = run.operatorPausePrevious) :
    Tree T O w₀ (w.updateRun r RunStatus.isActive set) :=
  updateRun_cases h fun run hrun hisActive =>
    h.setActive hrun hisActive (hset run).1 (hset run).2.1 (hset run).2.2.1 (hset run).2.2.2

theorem Tree.beginAttempt (r : RunId) (a : AttemptId) (ownsJob : Bool)
    (phase : Phase) : Tree T O w₀ (w.beginAttempt r a ownsJob phase).1 := by
  unfold World.beginAttempt
  split
  · rename_i run attempt hrun hattempt
    split
    · rename_i hcond
      have hstatus : attempt.status = .pending ∨ attempt.status = .running := by
        simp only [and_eq_true_iff, or_eq_true_iff, decide_eq_true_eq] at hcond
        exact hcond.2
      have hages : Ages w (w.setAttempt a { attempt with
          status := .running
          startedAt := some (attempt.startedAt.getD w.now) }) := by
        refine .setAttempt hattempt rfl (fun _ => ?_) fun hpast => ?_
        · rcases hstatus with hstatus | hstatus <;> rw [hstatus] <;> rfl
        · exact absurd hstatus (not_or.mpr hpast)
      refine (h.ages hages ?_ ?_).setWaiting r _ fun run => ⟨rfl, rfl, rfl, rfl⟩
      · rintro c p b - hwaits
        rcases waits_setAttempt.mp hwaits with ⟨-, hwaiting⟩ | ⟨-, hwaiting⟩
        · cases hwaiting
        · exact hwaiting
      · intro c p b _ _ hwaits
        refine .inl (waits_setAttempt.mpr (.inr ⟨?_, hwaits⟩))
        rintro rfl
        obtain ⟨other, hother, hwaiting⟩ := hwaits
        cases hattempt.symm.trans hother
        rw [hwaiting] at hstatus
        exact absurd hstatus (not_or.mpr ⟨nofun, nofun⟩)
    · exact h
  · exact h

theorem Tree.setPhase (r : RunId) (a : AttemptId) {status : RunStatus}
    (phase : Phase) (hstatus : status.isActive = true) :
    Tree T O w₀ (w.setPhase r a status phase) := by
  unfold World.setPhase
  split
  · exact h
  · rename_i run hrun
    split
    · rename_i hcond
      have hisActive := (and_eq_true_iff.mp (and_eq_true_iff.mp hcond).1).1
      exact h.setActive hrun hisActive hstatus rfl rfl rfl
    · exact h

end

variable {ownsJob : Bool}

theorem Tree.completeStep (h : Tree T O w₀ w)
    (hfree : ownsJob = true → ∀ c p, w.ParentIs c p a → ¬w.Over c → O c)
    (hresult : w.completeStep a output ownsJob = some w') : Tree T O w₀ w' := by
  unfold World.completeStep at hresult
  split at hresult
  · cases hresult
    exact h
  · rename_i run attempt hlock
    obtain ⟨hattempt, hrun, -, hactive⟩ := lockActiveAttempt_spec hlock
    split at hresult
    · rename_i hcond
      have hset := h.endAttempt { attempt with
        status := .completed, output := some output, error := none } hattempt rfl rfl
        (hfree (and_eq_true_iff.mp hcond).2) fun _ _ _ _ _ => id
      exact (hset.advance (h.noLive_setAttempt _ hrun hactive rfl) _ _).finish hresult
    · cases hresult
      exact h

theorem Tree.failStep (h : Tree T O w₀ w) {allow : Bool}
    (hfree : ownsJob = true → ∀ c p, w.ParentIs c p a → ¬w.Over c → O c)
    (hresult : w.failStep a error allow ownsJob = some w') : Tree T O w₀ w' := by
  unfold World.failStep at hresult
  split at hresult
  · cases hresult
    exact h
  · rename_i run attempt hlock
    split at hresult
    · rename_i hcond
      obtain ⟨result, hfail, hfinish⟩ := bind_eq_some_iff.mp hresult
      exact (h.failAttempt hlock (hfree (and_eq_true_iff.mp hcond).2) (fun _ _ _ _ _ => id)
        hfail).finish hfinish
    · cases hresult
      exact h

variable {pause : Pause} {plan : List Step} {input : Json}

/-! ## Pauses -/

section

variable (h : Tree T O w₀ w) {values : Values} {pauseId : PauseId} {value : Json}
include h

/-- The attempt that paused calls no child. -/
theorem Tree.resolvePause {attempt : Attempt}
    (hattempt : w.attempts pause.attemptId = some attempt) (hof : attempt.runId = pause.runId)
    (hno : ∀ c p, ¬w.ParentIs c p pause.attemptId) (output : Json) :
    Ends T O w₀ pause.runId (w.resolvePause pause output) := by
  unfold World.resolvePause
  split
  · exact h.ends
  · rename_i run other hlock
    obtain ⟨hother, hrun, -, hactive⟩ := lockActiveAttempt_spec hlock
    cases hattempt.symm.trans hother
    split
    · have hset := h.endAttempt { attempt with
        status := .completed, output := some output } hattempt rfl rfl
        (fun c p hparent => absurd hparent (hno c p)) fun _ _ _ _ _ => id
      exact hset.advance (hof ▸ h.noLive_setAttempt _ hrun hactive rfl) _ _
    · exact h.ends

/-- A pause of the world is resolved, and its attempt goes on. -/
theorem Tree.resolve_resolvePause (hpause : pause ∈ w.pauses)
    (resolution : Resolution) {set : Pause → Pause}
    (hset : ∀ pause, (set pause).attemptId = pause.attemptId ∧ (set pause).runId = pause.runId)
    (output : Json) :
    Ends T O w₀ pause.runId ((w.resolve pause.id resolution set).resolvePause pause output) := by
  obtain ⟨attempt, hattempt, hof, -, hno⟩ := h.pauses pause hpause
  exact (h.resolve pause.id resolution hset).resolvePause hattempt hof hno output

theorem Tree.timeOut (hpause : pause ∈ w.pauses) : Ends T O w₀ pause.runId (w.timeOut pause) := by
  refine h.resolve_resolvePause hpause .timedOut ?_ _
  exact fun _ => ⟨rfl, rfl⟩

theorem Tree.resolveNamedPause (hpause : pause ∈ w.pauses)
    (hresult : w.resolveNamedPause values pause = some result) :
    Ends T O w₀ pause.runId result := by
  unfold World.resolveNamedPause at hresult
  split at hresult
  · cases hresult
    exact h.timeOut hpause
  · split at hresult
    · cases hresult
    · split at hresult
      · cases hresult
      · rename_i signal _
        cases hresult
        have hsignals : Tree T O w₀ (w.resumeSignal signal.sequence pause.id) :=
          h.signals _ _
        refine hsignals.resolve_resolvePause hpause _ ?_ _
        exact fun _ => ⟨rfl, rfl⟩

omit h in
theorem insertPause_eq (h : w.insertPause pause = some w') :
    w' = { w with pauses := w.pauses ++ [pause], nextPause := w.nextPause + 1 } := by
  unfold World.insertPause at h
  split at h
  · cases h
  · exact (some.inj h).symm

/-- A running attempt suspends: it called no child before. -/
theorem Tree.suspend (attempt' : Attempt) (hattempt : w.attempts a = some attempt)
    (hrunning : attempt.status = .running) (hplace : attempt'.place = attempt.place) :
    Tree T O w₀ (w.setAttempt a attempt') ∧ ∀ c p, ¬w.ParentIs c p a := by
  have hno : ∀ c p, ¬w.ParentIs c p a := by
    intro c p hparent
    obtain ⟨-, other, hother, -, -, -, hnot⟩ := h.parent c p a hparent
    cases hattempt.symm.trans hother
    exact hnot hrunning
  refine ⟨h.ages (.setAttempt hattempt hplace (fun _ => hrunning ▸ rfl)
    fun hpast => absurd hrunning hpast.2) ?_ ?_, hno⟩
  · intro c p b hparent hwaits
    rcases waits_setAttempt.mp hwaits with ⟨rfl, -⟩ | ⟨-, hold⟩
    · exact absurd hparent (hno c p)
    · exact hold
  · intro c p b hparent _ hwaits
    refine .inl (waits_setAttempt.mpr (.inr ⟨?_, hwaits⟩))
    rintro rfl
    exact hno c p hparent

theorem Tree.appendPause (pause : Pause)
    (hattempt : w.attempts pause.attemptId = some attempt) (hof : attempt.runId = pause.runId)
    (hpast : attempt.status.past) (hno : ∀ c p, ¬w.ParentIs c p pause.attemptId)
    (nextPause : PauseId) : Tree T O w₀ { w with pauses := w.pauses ++ [pause], nextPause } :=
  ⟨{ h.toBase with
      pauses := fun other hother => (mem_append.mp hother).elim (h.pauses other) fun hnew => by
        obtain rfl := mem_singleton.mp hnew
        exact ⟨attempt, hattempt, hof, hpast, hno⟩ }, ⟨h.told, h.working⟩, h.stays, h.family⟩

omit h in
theorem updateRun_rows (w : World) (r : RunId) (statuses : RunStatus → Bool) (set : Run → Run) :
    (w.updateRun r statuses set).pauses = w.pauses ∧
      (w.updateRun r statuses set).attempts = w.attempts := by
  refine updateRun_cases (motive := fun w' => w'.pauses = w.pauses ∧ w'.attempts = w.attempts)
    ⟨rfl, rfl⟩ fun run _ _ => ?_
  unfold World.setStatus
  split
  · exact ⟨rfl, rfl⟩
  · exact ⟨rfl, rfl⟩

omit h in
theorem parentIs_updateRun (set : Run → Run) (hset : ∀ run, (set run).parent = run.parent) :
    (w.updateRun r statuses set).ParentIs c p a ↔ w.ParentIs c p a := by
  refine updateRun_cases (motive := fun w' => w'.ParentIs c p a ↔ w.ParentIs c p a) .rfl
    fun run hrun _ => ?_
  unfold World.setStatus
  split
  · exact parentIs_setRun hrun (hset run)
  · exact parentIs_setRun hrun (hset run)

theorem Tree.suspendForPause {transition : PauseTransition}
    (hresult : w.suspendForPause values a ownsJob transition = some w') : Tree T O w₀ w' := by
  rcases suspendForPause_cases hresult with rfl | ⟨run, attempt, pause, w₁, hlock, hrunning,
    hinsert, ⟨-, hrun, rfl, -, -⟩, w₂, rfl, hrest⟩
  · exact h
  · obtain ⟨hattempt, -⟩ := lockActiveAttempt_spec hlock
    obtain rfl := insertPause_eq hinsert
    obtain ⟨hwaits, hno⟩ := h.suspend { attempt with status := .waiting } hattempt hrunning rfl
    have hpaused := (hwaits.appendPause pause setAttempt_attempts_self hrun.symm ⟨nofun, nofun⟩ hno
      (w.nextPause + 1)).setWaiting attempt.runId
        (fun run => { run with status := .waiting, phase := .pause })
        fun run => ⟨rfl, rfl, rfl, rfl⟩
    rcases hrest with ⟨-, rfl⟩ | ⟨result, hresolve, hfinish⟩
    · exact hpaused
    · refine (Tree.resolveNamedPause hpaused ?_ hresolve).finish hfinish
      rw [(updateRun_rows ..).1]
      exact mem_append_right _ (mem_singleton_self _)

theorem Tree.signalByKey {name key : Text} {receipt : Receipt}
    (hresult : w.signalByKey values r name key value = .ok (some (w', receipt))) :
    Tree T O w₀ w' := by
  obtain ⟨stored, hash, -, ⟨existing, -, -, -, -, -, rfl⟩ |
    ⟨-, row, rfl, w₁, rfl, found, hfound, hrest⟩⟩ := signalByKey_cases hresult
  · exact h
  · rcases hrest with ⟨-, rfl⟩ | ⟨pause, result, rfl, hnamed, hfinish⟩
    · exact h.signals _ _
    · refine Ends.finish (Tree.resolveNamedPause ?_ ?_ hnamed) hfinish
      · exact h.signals _ _
      · exact mem_of_find?_eq_some hfound

theorem Tree.resumePause {key : Text} (hresult : w.resumePause values r pauseId key value = .ok
    (some w')) : Tree T O w₀ w' := by
  obtain ⟨pause, hpause, rfl, rfl, ⟨-, -, rfl⟩ | ⟨-, ⟨-, hfinish⟩ | ⟨-, hfinish⟩⟩⟩ :=
    resumePause_cases hresult
  · exact h
  · exact (h.timeOut hpause).finish hfinish
  · refine Ends.finish (h.resolve_resolvePause hpause _ ?_ _) hfinish
    exact fun _ => ⟨rfl, rfl⟩

theorem Tree.resolvePauseTimeout
    (hresult : w.resolvePauseTimeout r pauseId ownsJob = some w') : Tree T O w₀ w' := by
  rcases resolvePauseTimeout_cases hresult with rfl | ⟨pause, hpause, -, -, hfinish⟩
  · exact h
  · exact (h.timeOut hpause).finish hfinish

end

/-! ## Children and operators -/

/-- The attempt that calls a run waits, and called none before. -/
def World.MayCall (w : World) (p : RunId) (a : AttemptId) : Prop :=
  (∃ attempt, w.attempts a = some attempt ∧ attempt.status = .waiting ∧ attempt.runId = p ∧
    attempt.step.executor = .boundary) ∧ (∀ c p, ¬w.ParentIs c p a) ∧
    ∀ pause ∈ w.pauses, pause.attemptId ≠ a

/-- A run's row is inserted, without an attempt. -/
theorem Tree.insertRun (h : Tree T O w w) (run : Run)
    (hparent : ∀ p a, run.parent = some (p, a) → w.MayCall p a)
    (hactive : run.activeAttempt = none) (hstatus : run.status = .pending)
    (hprevious : run.operatorPausePrevious = none)
    (hw' : w' = { w.setRun w.nextRun run with nextRun := w.nextRun + 1 }) :
    Tree T O w' w' ∧ Stays w w' := by
  subst hw'
  have hfresh : ∀ r other, w.runs r = some other → r ≠ w.nextRun :=
    fun r other hother => Nat.ne_of_lt (h.runs_lt r other hother)
  have hkept : ∀ r other, w.runs r = some other →
      (w.setRun w.nextRun run).runs r = some other :=
    fun r other hother => (setRun_runs_of_ne (hfresh r other hother)).trans hother
  have hparentIs : ∀ c p a, (w.setRun w.nextRun run).ParentIs c p a →
      c = w.nextRun ∧ w.MayCall p a ∨ w.ParentIs c p a := by
    rintro c p a ⟨child, hchild, hof⟩
    rcases setRun_runs hchild with ⟨rfl, rfl⟩ | ⟨-, hold⟩
    · exact .inl ⟨rfl, hparent p a hof⟩
    · exact .inr ⟨child, hold, hof⟩
  have hnotOver : ¬(w.setRun w.nextRun run).Over w.nextRun := by
    rintro ⟨other, hother, hover⟩
    cases setRun_runs_self.symm.trans hother
    rw [hstatus] at hover
    cases hover
  refine ⟨⟨⟨?_, h.attempts_lt, ?_, ?_, ?_, ?_, h.numbers, h.distinct, ?_, ?_, ?_, ?_, ?_⟩,
    ⟨?_, ?_⟩, .refl _, fun _ _ _ => id⟩, ?_⟩
  · intro r other hother
    rcases setRun_runs hother with ⟨rfl, -⟩ | ⟨-, hold⟩
    · exact Nat.lt_succ_self _
    · exact Nat.lt_succ_of_lt (h.runs_lt r other hold)
  · intro c p a hparentOf
    rcases hparentIs c p a hparentOf with
      ⟨rfl, ⟨attempt, hattempt, hwaiting, rfl, hboundary⟩, -⟩ | hold
    · obtain ⟨owner, howner, -⟩ := h.owner a attempt hattempt
      refine ⟨h.runs_lt _ owner howner, attempt, hattempt, rfl, hboundary, ?_⟩
      rw [hwaiting]
      exact ⟨nofun, nofun⟩
    · exact h.parent c p a hold
  · intro c c' p p' a hfirst hsecond
    rcases hparentIs c p a hfirst with ⟨rfl, -, hno, -⟩ | hold
    · rcases hparentIs c' p' a hsecond with ⟨rfl, -⟩ | hold'
      · rfl
      · exact absurd hold' (hno c' p')
    · rcases hparentIs c' p' a hsecond with ⟨-, -, hno, -⟩ | hold'
      · exact absurd hold (hno c p)
      · exact h.onlyChild c c' p p' a hold hold'
  · intro a attempt hattempt
    obtain ⟨owner, howner, hrest⟩ := h.owner a attempt hattempt
    exact ⟨owner, hkept _ owner howner, hrest⟩
  · intro r other a hother hnamed
    rcases setRun_runs hother with ⟨-, rfl⟩ | ⟨-, hold⟩
    · rw [hactive] at hnamed
      cases hnamed
    · exact h.active r other a hold hnamed
  · intro a attempt hattempt hlive
    obtain ⟨owner, howner, hrest⟩ := h.live a attempt hattempt hlive
    exact ⟨owner, hkept _ owner howner, hrest⟩
  · intro r other hother
    rcases setRun_runs hother with ⟨-, rfl⟩ | ⟨-, hold⟩
    · rw [hstatus]
      nofun
    · exact h.status r other hold
  · intro r other hother hpaused
    rcases setRun_runs hother with ⟨-, rfl⟩ | ⟨-, hold⟩
    · rw [hstatus] at hpaused
      cases hpaused
    · exact h.paused r other hold hpaused
  · intro r other status phase hother hsome
    rcases setRun_runs hother with ⟨-, rfl⟩ | ⟨-, hold⟩
    · rw [hprevious] at hsome
      cases hsome
    · exact h.previous r other status phase hold hsome
  · intro pause hpause
    obtain ⟨attempt, hattempt, howner, hpast, hno⟩ := h.pauses pause hpause
    refine ⟨attempt, hattempt, howner, hpast, fun c p hparentOf => ?_⟩
    rcases hparentIs c p _ hparentOf with ⟨-, -, -, hnone⟩ | hold
    · exact hnone pause hpause rfl
    · exact hno c p hold
  · intro c p a hparentOf hover hwaits
    rcases hparentIs c p a hparentOf with ⟨rfl, -⟩ | hold
    · exact absurd hover hnotOver
    · obtain ⟨other, hother, hterminal⟩ := hover
      obtain ⟨child, hchild, -⟩ := id hold
      have hchild' := hkept c child hchild
      cases hchild'.symm.trans hother
      exact h.told c p a hold ⟨_, hchild, hterminal⟩ hwaits
  · intro c p a hparentOf hover
    rcases hparentIs c p a hparentOf with ⟨-, ⟨attempt, hattempt, hwaiting, -⟩, -⟩ | hold
    · exact .inl ⟨attempt, hattempt, hwaiting⟩
    · refine h.working c p a hold ?_
      rintro ⟨other, hother, hterminal⟩
      exact hover ⟨other, hkept c other hother, hterminal⟩
  · exact fun r other hother => ⟨other, hkept r other hother, fun _ => rfl⟩

/-- A run starts with its first attempt. -/
theorem Tree.initializeRun (h : Tree T O w w)
    {parent : Option (RunId × AttemptId)} (hparent : ∀ p a, parent = some (p, a) → w.MayCall p a)
    (hresult : w.initializeRun plan input parent = some w') :
    Tree T O w' w' ∧ Stays w w' := by
  obtain ⟨first, hfirst, rfl⟩ := map_eq_some_iff.mp hresult
  obtain ⟨hinsert, hstays⟩ := h.insertRun
    { phase := phaseFor first, parent, executionPlan := plan, currentInput := input }
    hparent rfl rfl rfl rfl
  have hnew : ∀ b other, w.attempts b = some other → other.runId ≠ w.nextRun := by
    intro b other hother
    obtain ⟨owner, howner, -⟩ := h.owner b other hother
    exact Nat.ne_of_lt (h.runs_lt _ owner howner)
  have hplan : plan[0]? = some first := by
    rw [← List.head?_eq_getElem?]
    exact hfirst
  have hstarted := hinsert.createStepAttempt input setRun_runs_self rfl hplan
    (Nat.le_refl 0) (fun b other hother hof => absurd hof (hnew b other hother)) (Nat.le_refl 1)
    (attempts_pos first) fun b other hother hof => absurd hof (hnew b other hother)
  exact ⟨hstarted.rebase, hstays.trans hstarted.stays⟩

theorem Tree.suspendForChild (h : Tree T O w w)
    {state : Option Json} {child : Option RunId} (hboundary : w.madeBy a .boundary = true)
    (hresult : w.suspendForChild a ownsJob plan input state = some (w', child)) :
    Tree T O w' w' ∧ Stays w w' := by
  unfold World.suspendForChild at hresult
  split at hresult
  · cases hresult
    exact ⟨h, .refl w⟩
  · rename_i run attempt hlock
    obtain ⟨hattempt, -⟩ := lockActiveAttempt_spec hlock
    split at hresult
    · rename_i hcond
      have hrunning : attempt.status = .running :=
        of_decide_eq_true (and_eq_true_iff.mp (and_eq_true_iff.mp hcond).1).2
      obtain ⟨w₁, hinitialize, hw'⟩ := map_eq_some_iff.mp hresult
      obtain ⟨rfl, -⟩ := Prod.mk.inj hw'
      obtain ⟨hwaits, hno⟩ := h.suspend { attempt with
        status := .waiting, callState := state.or attempt.callState } hattempt hrunning rfl
      have hsuspended := hwaits.setWaiting attempt.runId
        (fun run => { run with status := .waiting, phase := .child })
        fun run => ⟨rfl, rfl, rfl, rfl⟩
      refine (hsuspended.rebase.initializeRun ?_ hinitialize).imp id hsuspended.stays.trans
      rintro _ _ ⟨⟩
      refine ⟨⟨{ attempt with status := .waiting, callState := state.or attempt.callState }, ?_,
        rfl, rfl, ?_⟩, fun c p hparent => ?_, fun pause hpause => ?_⟩
      · rw [(updateRun_rows ..).2]
        exact setAttempt_attempts_self
      · rw [World.madeBy, hattempt] at hboundary
        exact of_decide_eq_true hboundary
      · have hset : World.ParentIs (w.setAttempt a _) c p a :=
          (parentIs_updateRun (fun run => { run with status := .waiting, phase := .child })
            fun _ => rfl).mp hparent
        exact hno c p hset
      · rw [(updateRun_rows ..).1] at hpause
        obtain ⟨other, hother, -, hpast, -⟩ := h.pauses pause hpause
        rintro rfl
        cases hattempt.symm.trans hother
        exact hpast.2 hrunning
    · cases hresult
      exact ⟨h, .refl w⟩

theorem Tree.pauseOperator (h : Tree T O w₀ w) (r : RunId) : Tree T O w₀ (w.pauseOperator r).1 := by
  unfold World.pauseOperator
  split
  · exact h
  · rename_i run hrun
    dsimp only
    split
    · exact h
    · split
      · rename_i hcond
        simp only [and_eq_true_iff] at hcond
        obtain ⟨⟨⟨hisActive, -⟩, hbatch⟩, -⟩ := hcond
        have hterminal := isTerminal_of_isActive hisActive
        have hupdate : Updates w r run
            { run with
              status := .paused
              operatorPausePrevious := some (run.status, run.phase) } := by
          refine ⟨rfl, .inl rfl, .inr ⟨rfl, rfl⟩, nofun, fun _ => ⟨rfl, .inr hbatch⟩, ?_, ?_⟩
          · rintro status phase ⟨⟩
            exact .inr hisActive
          · intro hover
            rw [hterminal] at hover
            cases hover
        exact h.setStatus hrun hupdate (fun _ => id) nofun
      · exact h

theorem Tree.resumeOperator (h : Tree T O w₀ w) (r : RunId) :
    Tree T O w₀ (w.resumeOperator r).1 := by
  unfold World.resumeOperator
  split
  · exact h
  · rename_i run hrun
    split
    · exact h
    · split
      · exact h
      · rename_i hpaused
        split
        · exact h
        · rename_i status phase hprevious
          have hpaused : run.status = .paused := not_not.mp hpaused
          have hisActive := h.previous r run status phase hrun hprevious
          have hterminal := isTerminal_of_isActive hisActive
          refine h.setStatus hrun ⟨rfl, .inl rfl, .inr ⟨rfl, hterminal⟩, ?_, ?_, nofun, ?_⟩
            (fun _ => id) fun hover => ?_
          · rintro rfl
            cases hisActive
          · rintro rfl
            cases hisActive
          · intro hover
            rw [hpaused] at hover
            cases hover
          · rw [hterminal] at hover
            cases hover

/-! ## The hierarchy of a run -/

theorem mem_childrenOf (h : Base w) : c ∈ w.childrenOf p ↔ ∃ a, w.ParentIs c p a := by
  rw [World.childrenOf, mem_filter]
  constructor
  · rintro ⟨-, hany⟩
    obtain ⟨child, hchild, hany⟩ := (Option.any_eq_true _ _).mp hany
    obtain ⟨⟨p', b⟩, hparent, hp⟩ := (Option.any_eq_true _ _).mp hany
    obtain rfl := of_decide_eq_true hp
    exact ⟨b, child, hchild, hparent⟩
  · rintro ⟨b, child, hchild, hparent⟩
    refine ⟨mem_range.mpr (h.runs_lt c child hchild), ?_⟩
    rw [hchild, any_some, hparent, any_some]
    exact decide_eq_true rfl

/-- The runs found by the loop, after it followed the first `index` of them. -/
structure Found (w : World) (root : RunId) (runs : List RunId) (index : Nat) : Prop where
  nodup : runs.Nodup
  lt : ∀ r ∈ runs, r < w.nextRun
  hasRoot : root ∈ runs
  parent : ∀ r ∈ runs, r = root ∨ ∃ p a, w.ParentIs r p a ∧ p ∈ runs
  above : ∀ r ∈ runs, root ≤ r
  followed : ∀ i p, i < index → runs[i]? = some p → ∀ c ∈ w.childrenOf p, c ∈ runs

variable {root : RunId} {runs : List RunId} {index : Nat} {reason : Option String}
  {told : Option RunId} {ids : List RunId} {w₁ : World}

theorem Found.length_le (h : Found w root runs index) : runs.length ≤ w.nextRun := by
  have hsub : runs ⊆ List.range w.nextRun := fun r hr => mem_range.mpr (h.lt r hr)
  have hle := (subperm_of_subset h.nodup hsub).length_le
  rwa [length_range] at hle

theorem Found.follow (hbase : Base w) (h : Found w root runs index)
    (hparent : runs[index]? = some p) :
    Found w root (runs ++ (w.childrenOf p).filter fun child => child ∉ runs) (index + 1) := by
  have hp : p ∈ runs := mem_of_getElem? hparent
  refine ⟨?_, ?_, mem_append_left _ h.hasRoot, ?_, ?_, ?_⟩
  · refine nodup_append'.mpr ⟨h.nodup, ((nodup_range).filter _).filter _, fun c hold hnew => ?_⟩
    exact of_decide_eq_true (mem_filter.mp hnew).2 hold
  · intro c hc
    rcases mem_append.mp hc with hold | hnew
    · exact h.lt c hold
    · obtain ⟨b, child, hchild, -⟩ := (mem_childrenOf hbase).mp (mem_filter.mp hnew).1
      exact hbase.runs_lt c child hchild
  · intro c hc
    rcases mem_append.mp hc with hold | hnew
    · exact (h.parent c hold).imp id fun ⟨p', b, hof, hmem⟩ =>
        ⟨p', b, hof, mem_append_left _ hmem⟩
    · obtain ⟨b, hof⟩ := (mem_childrenOf hbase).mp (mem_filter.mp hnew).1
      exact .inr ⟨p, b, hof, mem_append_left _ hp⟩
  · intro c hc
    rcases mem_append.mp hc with hold | hnew
    · exact h.above c hold
    · obtain ⟨b, hof⟩ := (mem_childrenOf hbase).mp (mem_filter.mp hnew).1
      exact Nat.le_of_lt (Nat.lt_of_le_of_lt (h.above p hp) (hbase.parent c p b hof).1)
  · intro i p' hi hget c hc
    by_cases hold : c ∈ runs
    · exact mem_append_left _ hold
    · have hlen : index < runs.length := (List.getElem?_eq_some_iff.mp hparent).1
      rw [List.getElem?_append_left (by omega)] at hget
      rcases Nat.lt_succ_iff_lt_or_eq.mp hi with hlt | rfl
      · exact absurd (h.followed i p' hlt hget c hc) hold
      · cases hparent.symm.trans hget
        exact mem_append_right _ (mem_filter.mpr ⟨hc, decide_eq_true hold⟩)

/-- The loop ends, as no run is found twice. -/
theorem Found.hierarchyFrom {fuel : Nat} (hbase : Base w) (h : Found w root runs index)
    (hindex : index ≤ runs.length) (hfuel : w.nextRun < fuel + index) :
    Found w root (w.hierarchyFrom fuel runs index) (w.hierarchyFrom fuel runs index).length := by
  induction fuel generalizing runs index with
  | zero =>
    have hle := Nat.le_trans hindex h.length_le
    rw [Nat.zero_add] at hfuel
    exact absurd hfuel (Nat.not_lt.mpr hle)
  | succ fuel ih =>
    rw [World.hierarchyFrom]
    split
    · rename_i hnone
      have hlast : index = runs.length :=
        Nat.le_antisymm hindex (List.getElem?_eq_none_iff.mp hnone)
      exact hlast ▸ h
    · rename_i p hparent
      have hlen := (List.getElem?_eq_some_iff.mp hparent).1
      refine ih (h.follow hbase hparent) ?_
        (Nat.lt_of_lt_of_eq hfuel (Nat.succ_add_eq_add_succ fuel index))
      rw [length_append]
      omega

theorem Base.lockRunHierarchy (h : Base w) (hroot : w.runs root = some run) :
    Found w root (w.lockRunHierarchy root) (w.lockRunHierarchy root).length := by
  refine Found.hierarchyFrom h ⟨nodup_singleton root, ?_, mem_singleton_self root, ?_, ?_,
    ?_⟩ (Nat.zero_le _) (Nat.lt_succ_self _)
  · intro r hr
    obtain rfl := mem_singleton.mp hr
    exact h.runs_lt r run hroot
  · exact fun r hr => .inl (mem_singleton.mp hr)
  · exact fun r hr => Nat.le_of_eq (mem_singleton.mp hr).symm
  · exact fun i p hi => absurd hi (Nat.not_lt_zero i)

/-- The hierarchy has the children of its runs. -/
theorem Found.child (hbase : Base w) (h : Found w root runs runs.length) (hp : p ∈ runs)
    (hparent : w.ParentIs c p a) : c ∈ runs := by
  obtain ⟨i, hi⟩ := mem_iff_getElem?.mp hp
  exact h.followed i p (List.getElem?_eq_some_iff.mp hi).1 hi c
    ((mem_childrenOf hbase).mpr ⟨a, hparent⟩)

/-! ## Operations on a hierarchy -/

theorem Tree.trans (h : Tree T' O' w₀ w₁) (h' : Tree T O w₁ w) : Tree T O w₀ w :=
  ⟨h'.toBase, h'.toLinked, h.stays.trans h'.stays,
    fun c p a hparent => h.family c p a (h'.family c p a hparent)⟩

/-- Work may be left aside. -/
theorem Tree.aside (h : Tree T O w₀ w) (hO : ∀ c, O c → O' c) : Tree T O' w₀ w :=
  ⟨h.toBase, h.toLinked.mono (fun _ => id) hO, h.stays, h.family⟩

/-- Work that was left aside ended. -/
theorem Tree.dropAside (h : Tree T O w₀ w) (hO : ∀ c, O c → w.Over c ∨ O' c) : Tree T O' w₀ w :=
  ⟨h.toBase, ⟨h.told, fun c p a hparent hover =>
    (h.working c p a hparent hover).imp id fun haside => (hO c haside).resolve_left hover⟩,
    h.stays, h.family⟩

theorem setStatus_rows (w : World) (r : RunId) (run : Run) :
    (w.setStatus r run).runs = (w.setRun r run).runs ∧
      (w.setStatus r run).attempts = w.attempts := by
  unfold World.setStatus
  split
  · exact ⟨rfl, rfl⟩
  · exact ⟨rfl, rfl⟩

/-- Runs without live attempts are canceled. -/
theorem Tree.cancelRuns (h : Tree T O w₀ w) (set : Run → Run)
    (hset : ∀ run, (set run).status = .canceled ∧ (set run).place = run.place ∧
      (set run).activeAttempt = run.activeAttempt ∧
      (set run).operatorPausePrevious = run.operatorPausePrevious) (hnodup : ids.Nodup)
    (hids : ∀ id ∈ ids, w.NoLive id ∧ ∃ run, w.runs id = some run ∧ run.status.isTerminal = false) :
    Tree (fun c => T c ∨ c ∈ ids) O w₀
        (ids.foldl (fun w id => w.updateRun id (fun _ => true) set) w) ∧
      (∀ id ∈ ids, (ids.foldl (fun w id => w.updateRun id (fun _ => true) set) w).Over id) ∧
      (ids.foldl (fun w id => w.updateRun id (fun _ => true) set) w).attempts = w.attempts := by
  induction ids generalizing w T w₀ with
  | nil =>
    exact ⟨h.drop fun _ _ _ _ _ _ => .inl, fun id hid => absurd hid not_mem_nil, rfl⟩
  | cons id ids ih =>
    obtain ⟨hnone, run, hrun, hterminal⟩ := hids id mem_cons_self
    obtain ⟨hnew, hnodup⟩ := nodup_cons.mp hnodup
    obtain ⟨hcanceled, hplace, hactive, hprevious⟩ := hset run
    have hover : (set run).status.isTerminal = true := hcanceled ▸ rfl
    have hends := h.endRun ⟨id, none, none⟩ hrun hnone hterminal hplace (.inl hactive)
      hprevious hover rfl
    have hupdate : w.updateRun id (fun _ => true) set = w.setStatus id (set run) :=
      updateRun_of hrun rfl
    obtain ⟨hruns, hattempts⟩ := setStatus_rows w id (set run)
    have htree : Tree (fun c => T c ∨ c = id) O w₀ (w.setStatus id (set run)) := by
      refine hends.tree.drop fun c p a _ _ _ htold => htold.imp_right ?_
      rintro ⟨e, he, rfl⟩
      cases he
      rfl
    obtain ⟨hrest, hovers, hsame⟩ := ih htree.rebase hnodup fun other hother => by
      obtain ⟨hnone', run', hrun', hterminal'⟩ := hids other (mem_cons_of_mem _ hother)
      have hne : other ≠ id := fun heq => hnew (heq ▸ hother)
      refine ⟨?_, run', ?_, hterminal'⟩
      · intro b attempt hattempt
        exact hnone' b attempt (hattempts ▸ hattempt)
      · rw [hruns]
        exact (setRun_runs_of_ne hne).trans hrun'
    rw [foldl_cons, hupdate]
    refine ⟨(htree.trans hrest).drop fun c p a _ _ _ htold => ?_, fun other hother => ?_,
      hsame.trans hattempts⟩
    · rcases htold with (hT | rfl) | hmem
      · exact .inl hT
      · exact .inr mem_cons_self
      · exact .inr (mem_cons_of_mem _ hmem)
    · rcases mem_cons.mp hother with rfl | hother
      · exact hrest.stays.over (over_setStatus hover)
      · exact hovers other hother

/-- No attempt of a run that is over waits. -/
theorem Base.not_waits (h : Base w) (hparent : w.ParentIs c p a) (hover : w.Over p) :
    ¬w.Waits a := by
  rintro ⟨attempt, hattempt, hwaiting⟩
  obtain ⟨-, other, hother, rfl, -⟩ := h.parent c p a hparent
  cases hattempt.symm.trans hother
  obtain ⟨owner, howner, -, hworks⟩ := h.live a attempt hattempt (isLive_waiting hwaiting)
  obtain ⟨run, hrun, hterminal⟩ := hover
  cases howner.symm.trans hrun
  rw [hworks] at hterminal
  cases hterminal

theorem Base.parent_row (h : Base w) (hparent : w.ParentIs c p a) : ∃ run, w.runs p = some run := by
  obtain ⟨-, attempt, hattempt, rfl, -⟩ := h.parent c p a hparent
  obtain ⟨run, hrun, -⟩ := h.owner a attempt hattempt
  exact ⟨run, hrun⟩

/-- After a cancel only the parent of the whole hierarchy may still wait. -/
theorem Tree.cancel (h : Tree T O w w) (hresult : w.cancel r reason = some (w', told)) :
    Tree (fun c => T c ∨ c = r ∧ told = some r ∧ ¬w.Over r) O w w' := by
  obtain ⟨root, hroot, hcancel⟩ := map_eq_some_iff.mp hresult
  have hfound := h.lockRunHierarchy hroot
  have hmem : ∀ {id}, id ∈ (w.lockRunHierarchy r).filter (fun id =>
      (w.runs id).any fun run => !run.status.isTerminal) ↔
      id ∈ w.lockRunHierarchy r ∧ ∃ run, w.runs id = some run ∧ run.status.isTerminal = false := by
    intro id
    rw [mem_filter, Option.any_eq_true]
    simp only [not_eq_true']
  dsimp only at hcancel
  have hnodup := hfound.nodup.filter fun id =>
    (w.runs id).any fun run => !run.status.isTerminal
  generalize (w.lockRunHierarchy r).filter (fun id =>
    (w.runs id).any fun run => !run.status.isTerminal) = active at hcancel hmem hnodup
  split at hcancel
  · obtain ⟨rfl, -⟩ := Prod.mk.inj hcancel
    exact h.drop fun _ _ _ _ _ _ => .inl
  · obtain ⟨rfl, rfl⟩ := Prod.mk.inj hcancel
    have hended : Tree T (fun c => O c ∨ c ∈ active) w
        ((w.endAttempts (· ∈ active) fun attempt =>
          { attempt with status := .canceled }).cancelPauses
          fun pause => pause.runId ∈ active) := by
      have haside : Tree T (fun c => O c ∨ c ∈ active) w w := h.aside fun _ => .inl
      refine Tree.cancelPauses ?_ _
      refine haside.endAttempts (fun _ => rfl) (fun _ => rfl) ?_
      -- The working children of what is canceled are canceled too.
      intro c p a hparent hp hover
      obtain ⟨hin, -⟩ := hmem.mp (of_decide_eq_true hp)
      obtain ⟨run, hrun, -⟩ := id hparent
      exact .inr (hmem.mpr ⟨hfound.child h.toBase hin hparent, run, hrun,
        eq_false_iff.mpr fun hterminal => hover ⟨run, hrun, hterminal⟩⟩)
    have hnone : ∀ id ∈ active, World.NoLive (w.endAttempts (· ∈ active) fun attempt =>
        { attempt with status := .canceled }) id :=
      fun id hid => noLive_endAttempts (fun _ => rfl) (decide_eq_true hid)
    obtain ⟨hcanceled, hovers, -⟩ := hended.cancelRuns
      (fun run => { run with status := .canceled, cancelReason := reason })
      (fun _ => ⟨rfl, rfl, rfl, rfl⟩) hnodup fun id hid => ⟨hnone id hid, (hmem.mp hid).2⟩
    refine Tree.dropAside (hcanceled.drop fun c p a hparent hover hwaits htold => ?_) fun c
      haside =>
      haside.elim .inr fun hactive => .inl (hovers c hactive)
    rcases htold with hT | hactive
    · exact .inl hT
    · obtain ⟨hin, run, hrun, hterminal⟩ := hmem.mp hactive
      have hparent₀ := hcanceled.family c p a hparent
      rcases hfound.parent c hin with rfl | ⟨p', b, hof, hp'⟩
      · refine .inr ⟨rfl, if_pos ?_, ?_⟩
        · obtain ⟨child, hchild, hof⟩ := id hparent₀
          cases hroot.symm.trans hchild
          rw [hof, any_some]
          exact decide_eq_true fun hp => absurd (hfound.above p hp)
            (Nat.not_le.mpr (h.parent c p a hparent₀).1)
        · rintro ⟨other, hother, hended⟩
          cases hrun.symm.trans hother
          rw [hterminal] at hended
          cases hended
      · -- The parent is in the hierarchy: it was over, or is canceled too.
        obtain ⟨child, hchild, hof₀⟩ := id hparent₀
        obtain ⟨child', hchild', hof'⟩ := hof
        cases hchild.symm.trans hchild'
        obtain ⟨rfl, rfl⟩ := Prod.mk.inj (some.inj (hof₀.symm.trans hof'))
        obtain ⟨before, hbefore⟩ := h.parent_row hparent₀
        refine absurd hwaits (hcanceled.not_waits hparent ?_)
        cases hstatus : before.status.isTerminal with
        | true => exact hcanceled.stays.over ⟨before, hbefore, hstatus⟩
        | false => exact hovers _ (hmem.mpr ⟨hp', before, hbefore, hstatus⟩)

theorem Tree.cancelWithin (h : Tree T O w w)
    (hresult : w.cancelWithin r reason = some w') : Tree T O w w' := by
  obtain ⟨⟨w₁, told⟩, hcancel, hrest⟩ := bind_eq_some_iff.mp hresult
  have hcanceled := h.cancel hcancel
  cases told with
  | none =>
    cases hrest
    refine hcanceled.drop fun c p a _ _ _ htold => htold.resolve_right ?_
    rintro ⟨-, hnone, -⟩
    cases hnone
  | some child =>
    refine hcanceled.reconcile (fun c htold => htold.imp_right ?_) hrest
    rintro ⟨rfl, hsome, -⟩
    exact (some.inj hsome).symm

/-- A cancel of its own transaction, of a run that no parent waits for. -/
theorem Tree.cancelRoot (h : Tree T O w w)
    (hroot : ∀ run, w.runs r = some run → run.parent = none ∨ run.status.isTerminal = true)
    (hresult : w.cancel r reason = some (w', told)) : Tree T O w w' := by
  have hcanceled := h.cancel hresult
  refine hcanceled.drop fun c p a hparent _ _ htold => htold.resolve_right ?_
  rintro ⟨rfl, -, hworks⟩
  obtain ⟨run, hrun, hof⟩ := hcanceled.family c p a hparent
  rcases hroot run hrun with hnone | hterminal
  · rw [hof] at hnone
    cases hnone
  · exact hworks ⟨run, hrun, hterminal⟩

/-! ## Failures of trees -/

theorem canFail_or_terminal (h : Base w) (hrun : w.runs r = some run) :
    run.status.canFail = true ∨ run.status.isTerminal = true := by
  have hcanceling := h.status r run hrun
  cases hstatus : run.status <;> simp_all [RunStatus.canFail, RunStatus.isActive,
    RunStatus.isTerminal]

theorem canFail_not_terminal (status : RunStatus) (h : status.canFail = true) :
    status.isTerminal = false := by
  cases status <;> first | rfl | cases h

/-- The runs of a hierarchy fail one after the other. -/
theorem Tree.failRuns (hbase : Base w) (h : Tree T (fun c => O c ∨ c ∈ runs) w w₁)
    (hchild : ∀ c p a, p ∈ runs → w.ParentIs c p a → c ∈ runs)
    (hids : ∀ id ∈ ids, id ∈ runs ∧ ∃ run, w.runs id = some run) (hresult : ids.foldlM (fun w' id =>
      if (w.runs id).any fun run => run.status.canFail then
        World.finish (w'.failRun id error RunStatus.canFail)
      else some w') w₁ = some w') :
    Tree T (fun c => O c ∨ c ∈ runs) w w' ∧ ∀ c, c ∈ ids ∨ w₁.Over c → w'.Over c := by
  induction ids generalizing w₁ with
  | nil =>
    cases hresult
    exact ⟨h, fun c hc => hc.resolve_left not_mem_nil⟩
  | cons id ids ih =>
    rw [foldlM_cons] at hresult
    obtain ⟨w₂, hfirst, hrest⟩ := bind_eq_some_iff.mp hresult
    obtain ⟨hid, run, hrun⟩ := hids id mem_cons_self
    obtain ⟨run₁, hrun₁, hstatus⟩ := h.stays id run hrun
    have hstep : Tree T (fun c => O c ∨ c ∈ runs) w₁ w₂ ∧ w₂.Over id := by
      split at hfirst
      · obtain ⟨hends, hover⟩ := h.rebase.failRun (r := id) (fun c b hparent _ =>
          .inr (hchild c id b hid (h.family c id b hparent))) error canFail_not_terminal
        have hover := hover run₁ hrun₁ (canFail_or_terminal h.toBase hrun₁)
        have hfrom : Tree T (fun c => O c ∨ c ∈ runs) (w₁.failRun id error RunStatus.canFail).1
            w₂ := Ends.finish ⟨hends.tree.rebase, hends.ended⟩ hfirst
        exact ⟨hends.finish hfirst, hfrom.stays.over hover⟩
      · rename_i hnot
        cases hfirst
        rw [hrun, any_some] at hnot
        have hterminal := (canFail_or_terminal hbase hrun).resolve_left hnot
        exact ⟨h.rebase, h.stays.over ⟨run, hrun, hterminal⟩⟩
    obtain ⟨htree, hovers⟩ := ih (h.trans hstep.1)
      (List.forall_mem_cons.mp hids).2 hrest
    refine ⟨htree, fun c hc => hovers c ?_⟩
    rcases hc with hmem | hover
    · rcases mem_cons.mp hmem with rfl | hmem
      · exact .inr hstep.2
      · exact .inl hmem
    · exact .inr (hstep.1.stays.over hover)

theorem Tree.failRunTree (h : Tree T O w w) (hresult : w.failRunTree r error = some w') :
    Tree T O w w' := by
  unfold World.failRunTree at hresult
  split at hresult
  · cases hresult
    exact h
  · rename_i root hroot
    have hfound := h.lockRunHierarchy hroot
    have haside : Tree T (fun c => O c ∨ c ∈ w.lockRunHierarchy r) w w := h.aside fun _ => .inl
    have hrow : ∀ id ∈ w.lockRunHierarchy r, ∃ run, w.runs id = some run := by
      intro id hid
      rcases hfound.parent id hid with rfl | ⟨-, -, ⟨child, hchild, -⟩, -⟩
      · exact ⟨root, hroot⟩
      · exact ⟨child, hchild⟩
    obtain ⟨htree, hovers⟩ := haside.failRuns h.toBase
      (fun c p a => hfound.child h.toBase)
      (fun id hid => ⟨hid, hrow id hid⟩) hresult
    exact htree.dropAside fun c haside =>
      haside.elim .inr fun hmem => .inl (hovers c (.inl hmem))

/-- An exhausted job fails its run, where no child of it works. -/
theorem Tree.handleExhaustedJob (h : Tree T O w w)
    (hfree : ∀ c a, w.ParentIs c r a → ¬w.Over c → O c)
    (hresult : w.handleExhaustedJob r error = some w') : Tree T O w w' := by
  unfold World.handleExhaustedJob at hresult
  split at hresult
  · cases hresult
    exact h
  · split at hresult
    · exact h.reconcile (fun _ => .inl) hresult
    · split at hresult
      · exact (h.failRun hfree error fun _ => isTerminal_of_isActive).1.finish hresult
      · cases hresult
        exact h

end Catamorphic.Execution.Coordinator
