import Catamorphic.Execution.SignalDelivery

/-!
# No run is left behind

An attempt that called a child ends with it. Three operations may end the attempt alone: its
step is completed or failed from outside, a job of its run is exhausted, and the child goes on
working under a run that ends without it. A cancel of the child itself tells the parent in a
second transaction, and until then, or for ever where that one is not run, the attempt waits
for a run that is over. Without these steps the tree holds together in every state.
-/

namespace Catamorphic.Execution.Coordinator

open Runs List Option

variable {w w' : World} {T O : RunId → Prop} {values : Values} {r c p : RunId} {a : AttemptId} {now : Nat} {run : Run}

/-- A run that is not over was called by an attempt of these. -/
def World.works (w : World) (which : RunId × AttemptId → Bool) : Bool :=
  (List.range w.nextRun).any fun child =>
    (w.runs child).any fun run => run.parent.any which && !run.status.isTerminal

/-- No attempt ends before the child it called, and no child is canceled alone. -/
def Action.keepsChildren (w : World) : Action → Bool
  | .completeStep attemptId _ ownsJob => !(ownsJob && w.works (·.2 = attemptId))
  | .failStep attemptId _ _ ownsJob => !(ownsJob && w.works (·.2 = attemptId))
  | .handleExhaustedJob runId _ => !w.works (·.1 = runId)
  | .cancel runId _ =>
    !(w.runs runId).any fun run => run.parent.isSome && !run.status.isTerminal
  | _ => true

theorem over_of_not_works (h : Base w) {which : RunId × AttemptId → Bool}
    (hnot : w.works which = false) (hparent : w.ParentIs c p a) (hwhich : which (p, a) = true) :
    w.Over c := by
  obtain ⟨child, hchild, hof⟩ := hparent
  cases hterminal : child.status.isTerminal with
  | true => exact ⟨child, hchild, hterminal⟩
  | false =>
    refine absurd hnot (Bool.not_eq_false _ ▸ ?_)
    refine any_eq_true.mpr ⟨c, mem_range.mpr (h.runs_lt c child hchild), ?_⟩
    rw [hchild, any_some, hof, any_some, hwhich, hterminal]
    rfl

theorem runs_empty : (empty now).runs r ≠ some run :=
  some_ne_none run ∘ Eq.symm

theorem attempts_empty {attempt : Attempt} : (empty now).attempts a ≠ some attempt :=
  some_ne_none attempt ∘ Eq.symm

theorem not_parentIs_empty : ¬(empty now).ParentIs c p a :=
  fun ⟨_, hrun, _⟩ => runs_empty hrun

theorem settled_empty (now : Nat) : Settled (empty now) where
  runs_lt := fun _ _ h => absurd h runs_empty
  attempts_lt := fun _ _ h => absurd h attempts_empty
  parent := fun _ _ _ h => absurd h not_parentIs_empty
  onlyChild := fun _ _ _ _ _ h => absurd h not_parentIs_empty
  owner := fun _ _ h => absurd h attempts_empty
  active := fun _ _ _ h => absurd h runs_empty
  numbers := fun _ _ h => absurd h attempts_empty
  distinct := fun _ _ _ _ h => absurd h attempts_empty
  live := fun _ _ h => absurd h attempts_empty
  status := fun _ _ h => absurd h runs_empty
  paused := fun _ _ h => absurd h runs_empty
  previous := fun _ _ _ _ h => absurd h runs_empty
  pauses := fun _ h => absurd h not_mem_nil
  told := fun _ _ _ h => absurd h not_parentIs_empty
  working := fun _ _ _ h => absurd h not_parentIs_empty

theorem Tree.step {action : Action} (h : Tree T O w w)
    (hok : action.keepsChildren w = true ∨ ∀ c, T c ∧ O c)
    (hs : Coordinator.step values w action = some w') : Tree T O w' w' ∧ Stays w w' := by
  have htree : Tree T O w w' → Tree T O w' w' ∧ Stays w w' :=
    fun htree => ⟨htree.rebase, htree.stays⟩
  cases action with
  | tick now =>
    rw [Coordinator.step] at hs
    split at hs
    · cases hs
      exact htree (h.same (.same rfl rfl rfl rfl fun pause hpause =>
        ⟨pause, hpause, rfl, rfl⟩) rfl)
    · cases hs
  | start plan input => exact h.initializeRun (fun _ _ hnone => by cases hnone) hs
  | beginAttempt runId attemptId ownsJob phase =>
    cases hs
    exact htree (h.beginAttempt ..)
  | setPhase runId attemptId status phase =>
    rw [Coordinator.step] at hs
    split at hs
    · rename_i hcond
      cases hs
      exact htree (h.setPhase _ _ _ (Bool.and_eq_true_iff.mp
        (Bool.and_eq_true_iff.mp hcond).1).1)
    · cases hs
  | completeStep attemptId output ownsJob =>
    refine htree (h.completeStep (fun howns c p hparent hover => ?_) hs)
    rcases hok with hok | hall
    · rw [Action.keepsChildren, howns, Bool.true_and] at hok
      exact absurd (over_of_not_works h.toBase ((Bool.not_eq_true' _).mp hok) hparent
        (decide_eq_true rfl)) hover
    · exact (hall c).2
  | failStep attemptId error allowBoundaryRetry ownsJob =>
    refine htree (h.failStep (fun howns c p hparent hover => ?_) hs)
    rcases hok with hok | hall
    · rw [Action.keepsChildren, howns, Bool.true_and] at hok
      exact absurd (over_of_not_works h.toBase ((Bool.not_eq_true' _).mp hok) hparent
        (decide_eq_true rfl)) hover
    · exact (hall c).2
  | suspendForPause attemptId ownsJob transition =>
    rw [Coordinator.step] at hs
    split at hs
    · exact htree (h.suspendForPause hs)
    · cases hs
  | signalByKey runId signal idempotencyKey value =>
    rw [Coordinator.step] at hs
    split at hs
    · rename_i result hresult
      obtain ⟨⟨w₁, receipt⟩, rfl, rfl⟩ := map_eq_some_iff.mp hs
      exact htree (h.signalByKey hresult)
    · cases hs
  | resumePause runId pauseId idempotencyKey value =>
    rw [Coordinator.step] at hs
    split at hs
    · rename_i result hresult
      subst hs
      exact htree (h.resumePause hresult)
    · cases hs
  | resolvePauseTimeout runId pauseId ownsJob => exact htree (h.resolvePauseTimeout hs)
  | suspendForChild attemptId ownsJob plan input state =>
    rw [Coordinator.step] at hs
    split at hs
    · rename_i hboundary
      obtain ⟨⟨w₁, child⟩, hresult, rfl⟩ := map_eq_some_iff.mp hs
      exact h.suspendForChild hboundary hresult
    · cases hs
  | reconcileTerminalChild childRunId ownsJob =>
    rw [Coordinator.step, World.reconcileTerminalChild] at hs
    split at hs
    · exact htree (h.reconcile (fun _ => .inl) hs)
    · cases hs
      exact htree h
  | pauseOperator runId =>
    cases hs
    exact htree (h.pauseOperator runId)
  | resumeOperator runId =>
    cases hs
    exact htree (h.resumeOperator runId)
  | cancel runId reason =>
    obtain ⟨⟨w₁, told⟩, hcancel, rfl⟩ := map_eq_some_iff.mp hs
    rcases hok with hok | hall
    · refine htree (h.cancelRoot (fun run hrun => ?_) hcancel)
      rw [Action.keepsChildren, hrun, any_some] at hok
      cases hparent : run.parent with
      | none => exact .inl rfl
      | some parent =>
        rw [hparent, isSome_some, Bool.true_and, Bool.not_not] at hok
        exact .inr hok
    · exact htree ((h.cancel hcancel).drop fun c _ _ _ _ _ _ => (hall c).1)
  | reconcile childRunId => exact htree (h.reconcile (fun _ => .inl) hs)
  | cancelWithin runId reason => exact htree (h.cancelWithin hs)
  | failRunTree runId error => exact htree (h.failRunTree hs)
  | handleExhaustedJob runId error =>
    refine htree (h.handleExhaustedJob (fun c b hparent hover => ?_) hs)
    rcases hok with hok | hall
    · exact absurd (over_of_not_works h.toBase ((Bool.not_eq_true' _).mp hok) hparent
        (decide_eq_true rfl)) hover
    · exact (hall c).2

theorem Settled.step {action : Action} (h : Settled w) (hok : action.keepsChildren w = true)
    (hs : Coordinator.step values w action = some w') : Settled w' ∧ Stays w w' :=
  (h.tree.step (.inl hok) hs).imp_left Tree.settled

/-- What holds between the transactions of a run of the system. -/
theorem settled_reachable
    (h : Reach (step values) (fun w action => action.keepsChildren w = true) (empty now) w) :
    Settled w :=
  h.invariant (settled_empty now) fun _ _ _ hsettled hok hs => (hsettled.step hok hs).1

theorem stays_reachable (h₀ : Settled w)
    (h : Reach (step values) (fun w action => action.keepsChildren w = true) w w') :
    Settled w' ∧ Stays w w' :=
  h.invariant (I := fun w' => Settled w' ∧ Stays w w') ⟨h₀, .refl w⟩ fun _ _ _ hinv hok hs =>
    (hinv.1.step hok hs).imp id hinv.2.trans

/-- The attempts of a step have different numbers, up to the most it has. -/
theorem Base.attempts_length (h : Base w) {k : Nat} {descriptor : Step}
    (hrun : w.runs r = some run) (hplan : run.executionPlan[k]? = some descriptor)
    {ids : List AttemptId} (hnodup : ids.Nodup)
    (hids : ∀ a ∈ ids, ∃ attempt, w.attempts a = some attempt ∧ attempt.runId = r ∧
      attempt.stepIndex = k) : ids.length ≤ descriptor.attempts := by
  let number : AttemptId → Nat := fun a => ((w.attempts a).map Attempt.attempt).getD 0
  have hdistinct : (ids.map number).Nodup := by
    refine List.Nodup.map_on (fun a ha b hb heq => ?_) hnodup
    obtain ⟨attempt, hattempt, hof, hat⟩ := hids a ha
    obtain ⟨other, hother, hof', hat'⟩ := hids b hb
    refine h.distinct a b attempt other hattempt hother (hof.trans hof'.symm)
      (hat.trans hat'.symm) ?_
    simpa only [number, hattempt, hother, map_some, getD_some] using heq
  have hsub : ids.map number ⊆ List.range' 1 descriptor.attempts := by
    intro n hn
    obtain ⟨a, ha, rfl⟩ := mem_map.mp hn
    obtain ⟨attempt, hattempt, hof, hat⟩ := hids a ha
    obtain ⟨owner, howner, hstep, -⟩ := h.owner a attempt hattempt
    rw [hof, hrun] at howner
    cases howner
    rw [hat, hplan] at hstep
    cases hstep
    obtain ⟨hfirst, hlast⟩ := h.numbers a attempt hattempt
    have hnumber : number a = attempt.attempt := by
      simp only [number, hattempt, map_some, getD_some]
    rw [hnumber]
    exact mem_range'_1.mpr ⟨hfirst, by omega⟩
  have hle := (subperm_of_subset hdistinct hsub).length_le
  rwa [length_map, length_range'] at hle

/--
**The tree of runs.** In every state of a run of the system that keeps the children: a terminal
status stays in every later state; a live attempt is the one its run's row names, so a run has
one at most; a step has no more attempts than its policy allows; no attempt waits for a run that
is over, and no run that is not over was called by one that is.
-/
theorem tree_of_runs {now : Nat}
    (h : Reach (step values) (fun w action => action.keepsChildren w = true) (empty now) w) :
    (∀ w', Reach (step values) (fun w action => action.keepsChildren w = true) w w' →
      ∀ r run, w.runs r = some run → run.status.isTerminal = true →
        ∃ run', w'.runs r = some run' ∧ run'.status = run.status) ∧
    (∀ a attempt, w.attempts a = some attempt → attempt.status.isLive = true →
      ∃ run, w.runs attempt.runId = some run ∧ run.activeAttempt = some a) ∧
    (∀ r run k descriptor, w.runs r = some run → run.executionPlan[k]? = some descriptor →
      ∀ ids : List AttemptId, ids.Nodup →
        (∀ a ∈ ids, ∃ attempt, w.attempts a = some attempt ∧ attempt.runId = r ∧
          attempt.stepIndex = k) → ids.length ≤ descriptor.attempts) ∧
    (∀ c p a, w.ParentIs c p a → w.Over c → ¬w.Waits a) ∧
    ∀ c p a, w.ParentIs c p a → ¬w.Over c → ¬w.Over p := by
  have hsettled := settled_reachable h
  refine ⟨fun w' hlater r run hrun hterminal => ?_, fun a attempt hattempt hlive => ?_,
    fun r run k descriptor hrun hplan ids => hsettled.attempts_length hrun hplan,
    hsettled.told,
    fun c p a hparent hworks hover => ?_⟩
  · obtain ⟨run', hrun', hstatus⟩ := (stays_reachable hsettled hlater).2 r run hrun
    exact ⟨run', hrun', hstatus hterminal⟩
  · obtain ⟨run, hrun, hactive, -⟩ := hsettled.live a attempt hattempt hlive
    exact ⟨run, hrun, hactive⟩
  · rcases hsettled.working c p a hparent hworks with hwaits | hnone
    · exact hsettled.not_waits hparent hover hwaits
    · exact hnone

/-- A run that calls a child, to the call. -/
def callingRun : List Action :=
  [.start [⟨.boundary, none⟩] .null, .beginAttempt 0 0 true .boundary,
    .suspendForChild 0 true [⟨.boundary, none⟩] .null none]

theorem tree_of_runs_callingRun :
    ∃ w, execOk (step plainValues) (fun w action => action.keepsChildren w = true) (empty 0)
        (callingRun ++ [.beginAttempt 1 1 true .boundary, .completeStep 1 .null true]) = some w ∧
      (w.runs 0).map Run.status = some .completed ∧
      ∀ c p a, w.ParentIs c p a → w.Over c → ¬w.Waits a := by
  have hrun : (execOk (step plainValues) (fun w action => action.keepsChildren w = true) (empty 0)
      (callingRun ++ [.beginAttempt 1 1 true .boundary, .completeStep 1 .null true])).map
        (fun w => (w.runs 0).map Run.status) = some (some .completed) := by
    decide +kernel
  obtain ⟨w, hw, hstatus⟩ := map_eq_some_iff.mp hrun
  exact ⟨w, hw, hstatus, (tree_of_runs (reach_of_execOk hw)).2.2.2.1⟩

/-- The child's parent, and the statuses of the child, its parent and the attempt that called. -/
def World.calls (w : World) :
    Option (RunId × AttemptId) × Option RunStatus × Option RunStatus × Option AttemptStatus :=
  ((w.runs 1).bind Run.parent, (w.runs 1).map Run.status, (w.runs 0).map Run.status,
    (w.attempts 0).map Attempt.status)

/--
The first transaction of a child's cancel leaves the attempt waiting for a run that is over. A
job of the caller that is exhausted after the call fails the caller, and the child works on.
-/
theorem tree_left :
    (∃ w, exec (step plainValues) (empty 0) (callingRun ++ [.cancel 1 none]) = some w ∧
      w.ParentIs 1 0 0 ∧ w.Over 1 ∧ w.Waits 0) ∧
    ∃ w, exec (step plainValues) (empty 0) (callingRun ++ [.failStep 0 "exhausted" false true]) =
        some w ∧
      w.ParentIs 1 0 0 ∧ ¬w.Over 1 ∧ w.Over 0 := by
  have hcancel : (exec (step plainValues) (empty 0) (callingRun ++ [.cancel 1 none])).map
      World.calls = some (some (0, 0), some .canceled, some .waiting, some .waiting) := by
    decide +kernel
  have hfail : (exec (step plainValues) (empty 0)
      (callingRun ++ [.failStep 0 "exhausted" false true])).map World.calls =
      some (some (0, 0), some .pending, some .failed, some .failed) := by
    decide +kernel
  obtain ⟨w, hw, hcalls⟩ := map_eq_some_iff.mp hcancel
  obtain ⟨w', hw', hcalls'⟩ := map_eq_some_iff.mp hfail
  simp only [World.calls, Prod.mk.injEq, bind_eq_some_iff, map_eq_some_iff]
    at hcalls hcalls'
  obtain ⟨⟨child, hchild, hof⟩, ⟨child₁, hchild₁, hcanceled⟩, -, attempt, hattempt, hwaiting⟩ :=
    hcalls
  obtain ⟨⟨child', hchild', hof'⟩, ⟨child₁', hchild₁', hpending⟩, ⟨owner, howner, hfailed⟩, -⟩ :=
    hcalls'
  refine ⟨⟨w, hw, ⟨child, hchild, hof⟩, ⟨child₁, hchild₁, hcanceled ▸ rfl⟩,
    attempt, hattempt, hwaiting⟩, w', hw', ⟨child', hchild', hof'⟩, ?_, owner, howner,
    hfailed ▸ rfl⟩
  rintro ⟨other, hother, hover⟩
  cases hchild₁'.symm.trans hother
  rw [hpending] at hover
  cases hover

/-! ## Every run -/

theorem tree_reachable (h₀ : Tree T O w w) (hall : ∀ c, T c ∧ O c)
    (h : Reach (step values) anyEvent w w') : Tree T O w' w' ∧ Stays w w' :=
  h.invariant (I := fun w' => Tree T O w' w' ∧ Stays w w') ⟨h₀, .refl w⟩ fun _ _ _ hinv _ hs =>
    (hinv.1.step (.inr hall) hs).imp id hinv.2.trans

/--
**No order of operations breaks the rows.** In every run, children left behind or not: a parent
is older than its child, and a boundary's attempt calls one at most; the attempts of a step are
numbered apart, up to the most it has, and the active one is the last; only the active attempt
of a run that goes on is live; and a terminal status stays.
-/
theorem rows_of_every_run (h : Reach (step values) anyEvent (empty now) w)
    (h' : Reach (step values) anyEvent w w') : Base w' ∧ Stays w w' := by
  have hempty : Tree (fun _ => True) (fun _ => True) (empty now) (empty now) :=
    ⟨(settled_empty now).toBase, (settled_empty now).toLinked.mono (fun _ => False.elim)
      fun _ => False.elim, .refl _, fun _ _ _ => id⟩
  have hall : ∀ _ : RunId, True ∧ True := fun _ => ⟨trivial, trivial⟩
  have htree := tree_reachable (tree_reachable hempty hall h).1 hall h'
  exact ⟨htree.1.toBase, htree.2⟩

/-- A caller fails while its child goes on. -/
theorem rows_of_every_run_failed : ∃ w, exec (step plainValues) (empty 0)
    (callingRun ++ [.failStep 0 "exhausted" false true]) = some w ∧ Base w := by
  have hrun : (exec (step plainValues) (empty 0)
      (callingRun ++ [.failStep 0 "exhausted" false true])).isSome = true := by
    decide +kernel
  obtain ⟨w, hw⟩ := isSome_iff_exists.mp hrun
  exact ⟨w, hw, (rows_of_every_run (reach_of_exec hw) .init).1⟩

end Catamorphic.Execution.Coordinator
