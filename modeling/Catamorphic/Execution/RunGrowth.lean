import Catamorphic.Execution.RunTreeSteps

/-!
# What every transaction does to the runs

A transaction keeps every row, its parent and its terminal status, and the rows it adds have new
ids. That holds of each of them from any state, also where the tree of runs is not sound.
-/

namespace Catamorphic.Execution.Coordinator

open List Option

variable {w w' w'' : World} {r : RunId} {a : AttemptId} {run run' : Run} {attempt : Attempt}

/-- Rows have ids that were given out. -/
def World.Bounded (w : World) : Prop := ∀ r run, w.runs r = some run → r < w.nextRun

/-- A row keeps its parent, or is new. -/
def Parents (w w' : World) : Prop :=
  ∀ r run', w'.runs r = some run' → (∃ run, w.runs r = some run ∧ run'.parent = run.parent) ∨
    w.runs r = none ∧ w.nextRun ≤ r

/-- From a world with ids in order to another that keeps its rows. -/
def Grows (w w' : World) : Prop :=
  w.Bounded → w'.Bounded ∧ w.nextRun ≤ w'.nextRun ∧ Stays w w' ∧ Parents w w'

theorem Parents.refl (w : World) : Parents w w := fun _ run hrun => .inl ⟨run, hrun, rfl⟩

theorem Grows.refl (w : World) : Grows w w :=
  fun h => ⟨h, Nat.le_refl _, .refl w, .refl w⟩

theorem Grows.trans (h : Grows w w') (h' : Grows w' w'') : Grows w w'' := by
  intro hbounded
  obtain ⟨hbounded', hle, hstays, hparents⟩ := h hbounded
  obtain ⟨hbounded'', hle', hstays', hparents'⟩ := h' hbounded'
  refine ⟨hbounded'', Nat.le_trans hle hle', hstays.trans hstays', ?_⟩
  intro r run'' hrun''
  rcases hparents' r run'' hrun'' with ⟨run', hrun', hparent'⟩ | ⟨hnone', hnew⟩
  · rcases hparents r run' hrun' with ⟨run, hrun, hparent⟩ | hnew
    · exact .inl ⟨run, hrun, hparent'.trans hparent⟩
    · exact .inr hnew
  · refine .inr ⟨?_, Nat.le_trans hle hnew⟩
    cases hrun : w.runs r with
    | none => rfl
    | some run =>
      obtain ⟨run', hrun', -⟩ := hstays r run hrun
      exact absurd (hrun'.symm.trans hnone') (some_ne_none _)

/-- The rows are the same ones. -/
theorem Grows.same (hruns : w'.runs = w.runs) (hnext : w'.nextRun = w.nextRun) : Grows w w' := by
  intro hbounded
  refine ⟨?_, Nat.le_of_eq hnext.symm, ?_, ?_⟩
  · intro r run hrun
    rw [hnext]
    exact hbounded r run (hruns ▸ hrun)
  · intro r run hrun
    exact ⟨run, hruns ▸ hrun, fun _ => rfl⟩
  · intro r run hrun
    exact .inl ⟨run, hruns ▸ hrun, rfl⟩

/-- A row is updated; a terminal status is not. -/
theorem Grows.setRun (hrun : w.runs r = some run)
    (hstatus : run.status.isTerminal = true → run'.status = run.status)
    (hparent : run'.parent = run.parent) : Grows w (w.setRun r run') := by
  intro hbounded
  refine ⟨?_, Nat.le_refl _, ?_, ?_⟩
  · intro r' other hother
    rcases setRun_runs hother with ⟨rfl, -⟩ | ⟨-, hold⟩
    · exact hbounded r' run hrun
    · exact hbounded r' other hold
  · intro r' other hother
    by_cases hsame : r' = r
    · subst hsame
      cases hrun.symm.trans hother
      exact ⟨run', setRun_runs_self, hstatus⟩
    · exact ⟨other, (setRun_runs_of_ne hsame).trans hother, fun _ => rfl⟩
  · intro r' other hother
    rcases setRun_runs hother with ⟨rfl, rfl⟩ | ⟨-, hold⟩
    · exact .inl ⟨run, hrun, hparent⟩
    · exact .inl ⟨other, hold, rfl⟩

/-! ## Transactions that deliver nothing -/

/-- Rows of runs are updated and inserted, pauses are canceled and signals discarded; all else that
changes are attempts and the clock. -/
inductive Moves : World → World → Prop
  | same {w w' : World} (h : { w with
      now := w'.now, attempts := w'.attempts, nextAttempt := w'.nextAttempt } = w') : Moves w w'
  | setRun {w : World} {r : RunId} {run run' : Run} (hrun : w.runs r = some run)
      (hstatus : run.status.isTerminal = true → run'.status = run.status)
      (hparent : run'.parent = run.parent) : Moves w (w.setRun r run')
  | insertRun (w : World) (run : Run) :
      Moves w { w.setRun w.nextRun run with nextRun := w.nextRun + 1 }
  | discard (w : World) (r : RunId) : Moves w (w.discardSignals r)
  | cancel (w : World) (which : Pause → Bool) : Moves w (w.cancelPauses which)
  | trans {w w' w'' : World} : Moves w w' → Moves w' w'' → Moves w w''

theorem Moves.refl (w : World) : Moves w w := .same rfl

theorem Moves.setAttempt : Moves w (w.setAttempt a attempt) := .same rfl

theorem Moves.endAttempts {of : RunId → Bool} {set : Attempt → Attempt} :
    Moves w (w.endAttempts of set) := .same rfl

theorem Moves.grows (h : Moves w w') : Grows w w' := by
  induction h with
  | same h => exact .same (congrArg World.runs h).symm (congrArg World.nextRun h).symm
  | setRun hrun hstatus hparent => exact .setRun hrun hstatus hparent
  | insertRun w run =>
    intro hbounded
    have hfree : w.runs w.nextRun = none := by
      cases hrun : w.runs w.nextRun with
      | none => rfl
      | some run => exact absurd (hbounded _ run hrun) (Nat.lt_irrefl _)
    refine ⟨?_, Nat.le_succ _, ?_, ?_⟩
    · intro r run hrun
      rcases setRun_runs hrun with ⟨rfl, -⟩ | ⟨-, hold⟩
      · exact Nat.lt_succ_self _
      · exact Nat.lt_succ_of_lt (hbounded r run hold)
    · intro r run hrun
      have hne : r ≠ w.nextRun := fun hsame => by
        rw [hsame, hfree] at hrun
        cases hrun
      exact ⟨run, (setRun_runs_of_ne hne).trans hrun, fun _ => rfl⟩
    · intro r run hrun
      rcases setRun_runs hrun with ⟨rfl, -⟩ | ⟨-, hold⟩
      · exact .inr ⟨hfree, Nat.le_refl _⟩
      · exact .inl ⟨run, hold, rfl⟩
  | discard | cancel => exact .same rfl rfl
  | trans _ _ ih ih' => exact ih.trans ih'

theorem Moves.setStatus (hrun : w.runs r = some run)
    (hstatus : run.status.isTerminal = true → run'.status = run.status)
    (hparent : run'.parent = run.parent) : Moves w (w.setStatus r run') := by
  rw [World.setStatus]
  split
  · exact (Moves.setRun hrun hstatus hparent).trans (.discard _ r)
  · exact .setRun hrun hstatus hparent

/-- A run that is not over may get any status. -/
theorem Moves.setWorking (hrun : w.runs r = some run) (hworks : run.status.isTerminal = false)
    (hparent : run'.parent = run.parent) : Moves w (w.setStatus r run') :=
  .setStatus hrun (fun hover => by rw [hworks] at hover; cases hover) hparent

variable {set : Run → Run}

theorem Moves.updateActive (hparent : ∀ run, (set run).parent = run.parent) (r : RunId) :
    Moves w (w.updateRun r RunStatus.isActive set) := by
  rw [World.updateRun]
  split
  · rename_i run hrun
    split
    · rename_i hactive
      exact .setWorking hrun (isTerminal_of_isActive hactive) (hparent run)
    · exact .refl w
  · exact .refl w

variable {input : Json}

theorem Moves.createStepAttempt {stepIndex : Nat} {descriptor : Step} {number : Nat} :
    Moves w (w.createStepAttempt r stepIndex descriptor input number) := by
  rw [World.createStepAttempt]
  have hattempt : Moves w { w.setAttempt w.nextAttempt
      { runId := r, stepIndex, step := descriptor, attempt := number, input } with
    nextAttempt := w.nextAttempt + 1 } := .same rfl
  refine hattempt.trans ?_
  split
  · exact .refl _
  · rename_i run hrun
    refine .setRun hrun (fun hover => ?_) ?_
    · rw [if_neg]
      intro hactive
      rw [isTerminal_of_isActive hactive] at hover
      cases hover
    · split <;> rfl

variable {output : Json}

theorem Moves.advance {index : Nat} : Moves w (w.advance r index output).1 := by
  rw [World.advance]
  split
  · exact .refl w
  · rename_i run hrun
    split
    · rename_i hcond
      split
      · exact .createStepAttempt
      · dsimp only
        exact .setWorking hrun (isTerminal_of_isActive (Bool.and_eq_true_iff.mp hcond).1) rfl
    · exact .refl w

variable {statuses : RunStatus → Bool} {error : String}

theorem Moves.failRun (hstatuses : ∀ status, statuses status = true → status.isTerminal = false) :
    Moves w (w.failRun r error statuses).1 := by
  have hcleanup : Moves w (w.cleanupRunScope r error) := by
    rw [World.cleanupRunScope]
    split
    · exact (Moves.cancel w _).trans .endAttempts
    · rename_i run hrun
      exact ((Moves.cancel w _).trans .endAttempts).trans (.setRun hrun (fun _ => rfl) rfl)
  refine hcleanup.trans ?_
  rw [World.failRun]
  split
  · exact .refl _
  · rename_i run hrun
    split
    · rename_i hof
      dsimp only
      exact .setWorking hrun (hstatuses _ hof) rfl
    · exact .refl _

variable {result : World × Option Ended} {allow : Bool}

theorem Moves.failAttempt
    (h : w.failAttempt a run attempt error allow = some result) : Moves w result.1 := by
  rw [World.failAttempt] at h
  split at h
  · obtain ⟨descriptor, -, rfl⟩ := map_eq_some_iff.mp h
    exact ((Moves.cancel w _).trans .setAttempt).trans .createStepAttempt
  · cases h
    exact ((Moves.cancel w _).trans .setAttempt).trans (.failRun fun _ => isTerminal_of_isActive)

theorem Moves.finishParent {ended : Ended} (h : w.finishParent ended = some result) :
    Moves w result.1 := by
  rw [World.finishParent] at h
  split at h
  · cases h
    exact .refl w
  · split at h
    · cases h
      exact .refl w
    · split at h
      · split at h
        · exact .failAttempt h
        · cases h
          exact Moves.setAttempt.trans .advance
      · cases h
        exact .refl w

theorem Moves.finishParents {depth : Nat} (h : finishParents depth result = some w') :
    Moves result.1 w' := by
  induction depth generalizing result with
  | zero =>
    obtain ⟨w₁, ended⟩ := result
    cases ended <;>
    · cases h
      exact .refl _
  | succ depth ih =>
    obtain ⟨w₁, ended⟩ := result
    cases ended with
    | none =>
      cases h
      exact .refl _
    | some ended =>
      obtain ⟨result, hparent, hrest⟩ := bind_eq_some_iff.mp h
      exact (Moves.finishParent hparent).trans (ih hrest)

/-- The rest of a transaction keeps what came before it. -/
theorem Moves.finish (h : Moves w result.1) (hfinish : World.finish result = some w') :
    Moves w w' :=
  h.trans (.finishParents hfinish)

theorem Moves.reconcile {child : RunId} (h : w.reconcileParentFromTerminalChild child = some w') :
    Moves w w' := by
  rw [World.reconcileParentFromTerminalChild] at h
  split at h
  · cases h
    exact .refl w
  · split at h
    · exact Moves.finish (.refl w) h
    · cases h
      exact .refl w

variable {plan : List Step} {parent : Option (RunId × AttemptId)}

/-- A run is started. -/
theorem Moves.initializeRun (h : w.initializeRun plan input parent = some w') : Moves w w' := by
  obtain ⟨first, -, rfl⟩ := map_eq_some_iff.mp h
  exact (Moves.insertRun w _).trans .createStepAttempt

variable {ownsJob : Bool} {phase : Phase}

theorem Moves.beginAttempt : Moves w (w.beginAttempt r a ownsJob phase).1 := by
  rw [World.beginAttempt]
  split
  · split
    · exact Moves.setAttempt.trans (.updateActive (by exact fun _ => rfl) r)
    · exact .refl w
  · exact .refl w

theorem Moves.setPhase {status : RunStatus} : Moves w (w.setPhase r a status phase) := by
  rw [World.setPhase]
  split
  · exact .refl w
  · rename_i run hrun
    split
    · rename_i hcond
      have hactive := (Bool.and_eq_true_iff.mp (Bool.and_eq_true_iff.mp hcond).1).1
      exact .setWorking hrun (isTerminal_of_isActive hactive) rfl
    · exact .refl w

theorem Moves.completeStep (h : w.completeStep a output ownsJob = some w') : Moves w w' := by
  rw [World.completeStep] at h
  split at h
  · cases h
    exact .refl w
  · split at h
    · exact Moves.finish (Moves.setAttempt.trans .advance) h
    · cases h
      exact .refl w

theorem Moves.failStep (h : w.failStep a error allow ownsJob = some w') : Moves w w' := by
  rw [World.failStep] at h
  split at h
  · cases h
    exact .refl w
  · split at h
    · obtain ⟨result, hfail, hfinish⟩ := bind_eq_some_iff.mp h
      exact Moves.finish (.failAttempt hfail) hfinish
    · cases h
      exact .refl w

variable {pause : Pause} {values : Values} {reason : Option String} {told : Option RunId}
  {pauseId : PauseId} {action : Action} {value : Json}

theorem Moves.resolvePause : Moves w (w.resolvePause pause output).1 := by
  rw [World.resolvePause]
  split
  · exact .refl w
  · split
    · exact Moves.setAttempt.trans .advance
    · exact .refl w

theorem Moves.suspendForChild {state : Option Json} {child : Option RunId}
    (h : w.suspendForChild a ownsJob plan input state = some (w', child)) : Moves w w' := by
  rw [World.suspendForChild] at h
  split at h
  · obtain ⟨rfl, -⟩ := Prod.mk.inj (some.inj h)
    exact .refl w
  · split at h
    · obtain ⟨w₁, hinit, hsame⟩ := map_eq_some_iff.mp h
      obtain ⟨rfl, -⟩ := Prod.mk.inj hsame
      exact (Moves.setAttempt.trans (.updateActive (by exact fun _ => rfl) _)).trans
        (.initializeRun hinit)
    · obtain ⟨rfl, -⟩ := Prod.mk.inj (some.inj h)
      exact .refl w

theorem Moves.pauseOperator : Moves w (w.pauseOperator r).1 := by
  rw [World.pauseOperator]
  split
  · exact .refl w
  · rename_i run hrun
    dsimp only
    split
    · exact .refl w
    · split
      · rename_i hcond
        simp only [Bool.and_eq_true] at hcond
        dsimp only
        exact .setWorking hrun (isTerminal_of_isActive hcond.1.1.1) rfl
      · exact .refl w

theorem Moves.resumeOperator : Moves w (w.resumeOperator r).1 := by
  rw [World.resumeOperator]
  split
  · exact .refl w
  · rename_i run hrun
    split
    · exact .refl w
    · split
      · exact .refl w
      · rename_i hpaused
        split
        · exact .refl w
        · dsimp only
          exact .setWorking hrun (by rw [not_not.mp hpaused]; rfl) rfl

theorem Moves.failRunTree (h : w.failRunTree r error = some w') : Moves w w' := by
  rw [World.failRunTree] at h
  split at h
  · cases h
    exact .refl w
  · have hfold : ∀ (ids : List RunId) (w₁ : World), ids.foldlM (fun w' id =>
        if (w.runs id).any fun run => run.status.canFail then
          World.finish (w'.failRun id error RunStatus.canFail)
        else some w') w₁ = some w' → Moves w₁ w' := by
      intro ids
      induction ids with
      | nil =>
        intro w₁ h
        cases h
        exact .refl _
      | cons id ids ih =>
        intro w₁ h
        rw [foldlM_cons] at h
        obtain ⟨w₂, hfirst, hrest⟩ := bind_eq_some_iff.mp h
        refine Moves.trans ?_ (ih w₂ hrest)
        split at hfirst
        · exact Moves.finish (.failRun canFail_not_terminal) hfirst
        · cases hfirst
          exact .refl w₁
    exact hfold _ w h

theorem Moves.handleExhaustedJob (h : w.handleExhaustedJob r error = some w') : Moves w w' := by
  rw [World.handleExhaustedJob] at h
  split at h
  · cases h
    exact .refl w
  · split at h
    · exact .reconcile h
    · split at h
      · exact Moves.finish (.failRun fun _ => isTerminal_of_isActive) h
      · cases h
        exact .refl w

/-! ## Every transaction -/

/-- Four operations work on pauses and signals, and a cancel rewrites a hierarchy of runs. -/
inductive Stepped (values : Values) (w w' : World) : Prop
  | moves (h : Moves w w')
  | cancels {runId : RunId} {reason : Option String} {w₁ : World} {told : Option RunId}
      (h : w.cancel runId reason = some (w₁, told)) (rest : Moves w₁ w')
  | suspends {attemptId : AttemptId} {ownsJob : Bool} {transition : PauseTransition}
      (h : w.suspendForPause values attemptId ownsJob transition = some w')
  | signals {runId : RunId} {signal idempotencyKey : Text} {value : Json} {receipt : Receipt}
      (h : w.signalByKey values runId signal idempotencyKey value = .ok (some (w', receipt)))
  | resumes {runId : RunId} {pauseId : PauseId} {idempotencyKey : Text} {value : Json}
      (h : w.resumePause values runId pauseId idempotencyKey value = .ok (some w'))
  | timesOut {runId : RunId} {pauseId : PauseId} {ownsJob : Bool}
      (h : w.resolvePauseTimeout runId pauseId ownsJob = some w')

theorem step_stepped (hs : step values w action = some w') : Stepped values w w' := by
  cases action with
  | tick now =>
    rw [Coordinator.step] at hs
    split at hs
    · cases hs
      exact .moves (.same rfl)
    · cases hs
  | start plan input => exact .moves (.initializeRun hs)
  | beginAttempt runId attemptId ownsJob phase =>
    cases hs
    exact .moves .beginAttempt
  | setPhase runId attemptId status phase =>
    rw [Coordinator.step] at hs
    split at hs
    · cases hs
      exact .moves .setPhase
    · cases hs
  | completeStep attemptId output ownsJob => exact .moves (.completeStep hs)
  | failStep attemptId error allow ownsJob => exact .moves (.failStep hs)
  | suspendForPause attemptId ownsJob transition =>
    rw [Coordinator.step] at hs
    split at hs
    · exact .suspends hs
    · cases hs
  | signalByKey runId signal idempotencyKey value =>
    rw [Coordinator.step] at hs
    split at hs
    · rename_i result hresult
      obtain ⟨⟨w₁, receipt⟩, rfl, rfl⟩ := map_eq_some_iff.mp hs
      exact .signals hresult
    · cases hs
  | resumePause runId pauseId idempotencyKey value =>
    rw [Coordinator.step] at hs
    split at hs
    · rename_i result hresult
      subst hs
      exact .resumes hresult
    · cases hs
  | resolvePauseTimeout runId pauseId ownsJob => exact .timesOut hs
  | suspendForChild attemptId ownsJob plan input state =>
    rw [Coordinator.step] at hs
    split at hs
    · obtain ⟨⟨w₁, child⟩, hchild, rfl⟩ := map_eq_some_iff.mp hs
      exact .moves (.suspendForChild hchild)
    · cases hs
  | reconcileTerminalChild childRunId ownsJob =>
    rw [Coordinator.step, World.reconcileTerminalChild] at hs
    split at hs
    · exact .moves (.reconcile hs)
    · cases hs
      exact .moves (.refl w)
  | pauseOperator runId =>
    cases hs
    exact .moves .pauseOperator
  | resumeOperator runId =>
    cases hs
    exact .moves .resumeOperator
  | cancel runId reason =>
    obtain ⟨⟨w₁, told⟩, hcancel, rfl⟩ := map_eq_some_iff.mp hs
    exact .cancels hcancel (.refl _)
  | reconcile childRunId => exact .moves (.reconcile hs)
  | cancelWithin runId reason =>
    obtain ⟨⟨w₁, told⟩, hcancel, hrest⟩ := bind_eq_some_iff.mp hs
    cases told with
    | none =>
      cases hrest
      exact .cancels hcancel (.refl _)
    | some child => exact .cancels hcancel (.reconcile hrest)
  | failRunTree runId error => exact .moves (.failRunTree hs)
  | handleExhaustedJob runId error => exact .moves (.handleExhaustedJob hs)

/-! ## The rows of the runs -/

theorem Grows.timeOut : Grows w (w.timeOut pause).1 := by
  refine Grows.trans ?_ Moves.resolvePause.grows
  exact .same rfl rfl

theorem Grows.resolveNamedPause
    (h : w.resolveNamedPause values pause = some result) : Grows w result.1 := by
  rw [World.resolveNamedPause] at h
  split at h
  · cases h
    exact .timeOut
  · split at h
    · cases h
    · split at h
      · cases h
      · cases h
        refine Grows.trans ?_ Moves.resolvePause.grows
        exact .same rfl rfl

theorem Grows.finish (h : Grows w result.1) (hfinish : World.finish result = some w') :
    Grows w w' :=
  h.trans (Moves.finishParents hfinish).grows

theorem Grows.suspendForPause {transition : PauseTransition}
    (h : w.suspendForPause values a ownsJob transition = some w') : Grows w w' := by
  rcases suspendForPause_cases h with rfl | ⟨run, attempt, pause, w₁, -, -, hinsert, -, w₂, hw₂,
    hrest⟩
  · exact .refl w'
  · have hwaits : Grows w w₂ := by
      rw [hw₂, insertPause_eq hinsert]
      refine Grows.trans ?_ (Moves.setAttempt.trans (.updateActive ?_ attempt.runId)).grows
      · exact .same rfl rfl
      · exact fun _ => rfl
    rcases hrest with ⟨-, rfl⟩ | ⟨result, hresolve, hfinish⟩
    · exact hwaits
    · exact Grows.finish (hwaits.trans (.resolveNamedPause hresolve)) hfinish

theorem Grows.signalByKey {name key : Text} {receipt : Receipt}
    (h : w.signalByKey values r name key value = .ok (some (w', receipt))) : Grows w w' := by
  obtain ⟨stored, hash, -, ⟨existing, -, -, -, -, -, rfl⟩ |
    ⟨-, row, -, w₁, rfl, found, -, hrest⟩⟩ := signalByKey_cases h
  · exact .refl w'
  · rcases hrest with ⟨-, rfl⟩ | ⟨pause, result, -, hnamed, hfinish⟩
    · exact .same rfl rfl
    · refine Grows.trans ?_ (Grows.finish (.resolveNamedPause hnamed) hfinish)
      exact .same rfl rfl

theorem Grows.resumePause {key : Text}
    (h : w.resumePause values r pauseId key value = .ok (some w')) : Grows w w' := by
  obtain ⟨pause, -, -, -, ⟨-, -, rfl⟩ | ⟨-, ⟨-, hfinish⟩ | ⟨-, hfinish⟩⟩⟩ := resumePause_cases h
  · exact .refl w'
  · exact Grows.finish .timeOut hfinish
  · refine Grows.finish (Grows.trans ?_ Moves.resolvePause.grows) hfinish
    exact .same rfl rfl

theorem Grows.resolvePauseTimeout
    (h : w.resolvePauseTimeout r pauseId ownsJob = some w') : Grows w w' := by
  rcases resolvePauseTimeout_cases h with rfl | ⟨pause, -, -, -, hfinish⟩
  · exact .refl w'
  · exact Grows.finish .timeOut hfinish

theorem runs_updateRun (id : RunId) : (w.updateRun r (fun _ => true) set).runs id =
      (w.runs id).map fun run => if id = r then set run else run := by
  cases hrow : w.runs r with
  | none =>
    rw [World.updateRun, hrow]
    by_cases hsame : id = r
    · subst hsame
      rw [hrow]
      rfl
    · simp [hsame]
  | some run =>
    rw [updateRun_of hrow rfl, (setStatus_rows w r (set run)).1]
    by_cases hsame : id = r
    · subst hsame
      rw [setRun_runs_self, hrow, map_some, if_pos rfl]
    · rw [setRun_runs_of_ne hsame]
      simp [hsame]

theorem runs_foldl_updateRun (hset : ∀ run, set (set run) = set run) (ids : List RunId) (id : RunId)
    : (ids.foldl (fun w' id => w'.updateRun id (fun _ => true) set) w).runs id =
      (w.runs id).map fun run => if id ∈ ids then set run else run := by
  induction ids generalizing w with
  | nil => simp
  | cons first rest ih =>
    rw [foldl_cons, ih, runs_updateRun, Option.map_map]
    congr 1
    funext run
    by_cases hfirst : id = first
    · subst hfirst
      by_cases hrest : id ∈ rest <;> simp [hset]
    · simp [hfirst]

theorem nextRun_updateRun : (w.updateRun r statuses set).nextRun = w.nextRun := by
  refine updateRun_cases (motive := fun w' => w'.nextRun = w.nextRun) rfl fun run _ _ => ?_
  unfold World.setStatus
  split <;> rfl

theorem nextRun_foldl_updateRun (ids : List RunId) :
    (ids.foldl (fun w' id => w'.updateRun id (fun _ => true) set) w).nextRun = w.nextRun := by
  induction ids generalizing w with
  | nil => rfl
  | cons first rest ih =>
    rw [foldl_cons, ih]
    exact nextRun_updateRun

/-- A run of the hierarchy that is canceled, where it goes on. -/
def World.canceledRun (w : World) (root : RunId) (reason : Option String) (id : RunId) (run : Run) :
    Run :=
  if id ∈ w.lockRunHierarchy root ∧ run.status.isTerminal = false then
    { run with status := .canceled, cancelReason := reason }
  else run

/-- **A cancel ends the runs of the hierarchy that go on, and changes no other row.** -/
theorem runs_cancel (h : w.cancel r reason = some (w', told)) : w'.nextRun = w.nextRun ∧
      ∀ id, w'.runs id = (w.runs id).map (w.canceledRun r reason id) := by
  obtain ⟨root, hroot, hcancel⟩ := map_eq_some_iff.mp h
  have hmem : ∀ {id run}, w.runs id = some run → (id ∈ (w.lockRunHierarchy r).filter (fun id =>
      (w.runs id).any fun run => !run.status.isTerminal) ↔
      id ∈ w.lockRunHierarchy r ∧ run.status.isTerminal = false) := by
    intro id run hrun
    rw [mem_filter, hrun, any_some, Bool.not_eq_true']
  dsimp only at hcancel
  split at hcancel
  · rename_i hnone
    obtain ⟨rfl, -⟩ := Prod.mk.inj hcancel
    refine ⟨rfl, fun id => ?_⟩
    cases hrun : w.runs id with
    | none => rfl
    | some run =>
      rw [map_some, World.canceledRun, if_neg]
      rw [← hmem hrun, hnone]
      exact not_mem_nil
  · obtain ⟨rfl, -⟩ := Prod.mk.inj hcancel
    refine ⟨nextRun_foldl_updateRun _, fun id => ?_⟩
    refine (runs_foldl_updateRun ?_ _ _).trans ?_
    · exact fun _ => rfl
    show (w.runs id).map _ = _
    cases hrun : w.runs id with
    | none => rfl
    | some run =>
      rw [map_some, map_some, World.canceledRun]
      simp only [hmem hrun]

/-- Rows are rewritten, with their parents and terminal statuses. -/
theorem Grows.rows {set : RunId → Run → Run} (hnext : w'.nextRun = w.nextRun)
    (hruns : ∀ id, w'.runs id = (w.runs id).map (set id))
    (hset : ∀ id run, (run.status.isTerminal = true → (set id run).status = run.status) ∧
      (set id run).parent = run.parent) : Grows w w' := by
  intro hbounded
  have hold : ∀ id run', w'.runs id = some run' → ∃ run, w.runs id = some run ∧ set id run = run' :=
    fun id run' hrun' => map_eq_some_iff.mp (hruns id ▸ hrun')
  refine ⟨?_, Nat.le_of_eq hnext.symm, ?_, ?_⟩
  · intro id run' hrun'
    obtain ⟨run, hrun, -⟩ := hold id run' hrun'
    rw [hnext]
    exact hbounded id run hrun
  · intro id run hrun
    refine ⟨set id run, ?_, (hset id run).1⟩
    rw [hruns, hrun]
    rfl
  · intro id run' hrun'
    obtain ⟨run, hrun, rfl⟩ := hold id run' hrun'
    exact .inl ⟨run, hrun, (hset id run).2⟩

theorem Grows.cancel (h : w.cancel r reason = some (w', told)) : Grows w w' := by
  obtain ⟨hnext, hruns⟩ := runs_cancel h
  refine .rows hnext hruns fun id run => ?_
  rw [World.canceledRun]
  split
  · rename_i hof
    refine ⟨fun hover => ?_, rfl⟩
    rw [hof.2] at hover
    cases hover
  · exact ⟨fun _ => rfl, rfl⟩

theorem Grows.cancelWithin (h : w.cancelWithin r reason = some w') : Grows w w' := by
  obtain ⟨⟨w₁, told⟩, hcancel, hrest⟩ := bind_eq_some_iff.mp h
  cases told with
  | none =>
    cases hrest
    exact .cancel hcancel
  | some child => exact (Grows.cancel hcancel).trans (Moves.reconcile hrest).grows

/-- A run of a hierarchy is its root, or was called. -/
theorem mem_lockRunHierarchy {root id : RunId} (h : id ∈ w.lockRunHierarchy root) :
    id = root ∨ ∃ run, w.runs id = some run ∧ run.parent ≠ none := by
  have hfrom : ∀ (fuel : Nat) (runs : List RunId) (index : Nat),
      id ∈ w.hierarchyFrom fuel runs index → id ∈ runs ∨
        ∃ run, w.runs id = some run ∧ run.parent ≠ none := by
    intro fuel
    induction fuel with
    | zero => exact fun runs index => .inl
    | succ fuel ih =>
      intro runs index hmem
      rw [World.hierarchyFrom] at hmem
      split at hmem
      · exact .inl hmem
      · rename_i parent _
        refine (ih _ _ hmem).elim (fun hmem => ?_) .inr
        rcases mem_append.mp hmem with hmem | hmem
        · exact .inl hmem
        · -- A row that is added is a child of one that was there.
          obtain ⟨-, hchild⟩ := mem_filter.mp (mem_filter.mp hmem).1
          obtain ⟨run, hrun, hparent⟩ := (any_eq_true _ _).mp hchild
          refine .inr ⟨run, hrun, fun hnone => ?_⟩
          rw [hnone] at hparent
          cases hparent
  exact (hfrom _ _ _ h).imp_left mem_singleton.mp

theorem root_mem_lockRunHierarchy (w : World) (root : RunId) : root ∈ w.lockRunHierarchy root := by
  have hfrom : ∀ (fuel : Nat) (runs : List RunId) (index : Nat), root ∈ runs →
      root ∈ w.hierarchyFrom fuel runs index := by
    intro fuel
    induction fuel with
    | zero => exact fun runs index hmem => hmem
    | succ fuel ih =>
      intro runs index hmem
      rw [World.hierarchyFrom]
      split
      · exact hmem
      · exact ih _ _ (mem_append_left _ hmem)
  exact hfrom _ _ _ (mem_singleton_self root)

/-- A cancel of a root has no parent to tell. -/
theorem runs_cancelWithin (hrun : w.runs r = some run)
    (hroot : run.parent = none) (h : w.cancelWithin r reason = some w') :
    w'.nextRun = w.nextRun ∧ ∀ id, w'.runs id = (w.runs id).map (w.canceledRun r reason id) := by
  obtain ⟨⟨w₁, told⟩, hcancel, hrest⟩ := bind_eq_some_iff.mp h
  have htold : told = none := by
    obtain ⟨root, hof, hresult⟩ := map_eq_some_iff.mp hcancel
    cases hrun.symm.trans hof
    dsimp only at hresult
    split at hresult
    · rw [hroot] at hresult
      exact (Prod.mk.inj hresult).2.symm
    · rw [hroot] at hresult
      exact (Prod.mk.inj hresult).2.symm
  subst htold
  cases hrest
  exact runs_cancel hcancel

/-- A run is started, and no other row is written. -/
theorem runs_initializeRun (h : w.initializeRun plan input parent = some w') :
    (∃ run, w'.runs w.nextRun = some run ∧ run.parent = parent ∧ run.status = .pending) ∧
      ∀ id, id ≠ w.nextRun → w'.runs id = w.runs id := by
  obtain ⟨first, -, rfl⟩ := map_eq_some_iff.mp h
  have hrow : ({ w.setRun w.nextRun
      { phase := phaseFor first, parent, executionPlan := plan, currentInput := input } with
    nextRun := w.nextRun + 1 } : World).runs w.nextRun = some
      { phase := phaseFor first, parent, executionPlan := plan, currentInput := input } :=
    setRun_runs_self
  rw [createStepAttempt_eq hrow rfl]
  refine ⟨⟨_, setRun_runs_self, rfl, rfl⟩, fun id hne => ?_⟩
  rw [setRun_runs_of_ne hne]
  exact setRun_runs_of_ne hne

/-- **Every transaction of the coordinator keeps the rows.** -/
theorem Grows.step (h : step values w action = some w') : Grows w w' := by
  cases step_stepped h with
  | moves hmoves => exact hmoves.grows
  | cancels hcancel hrest => exact (Grows.cancel hcancel).trans hrest.grows
  | suspends hsuspend => exact .suspendForPause hsuspend
  | signals hsignal => exact .signalByKey hsignal
  | resumes hresume => exact .resumePause hresume
  | timesOut htimeout => exact .resolvePauseTimeout htimeout

end Catamorphic.Execution.Coordinator
