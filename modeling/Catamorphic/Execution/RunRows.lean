import Mathlib.Logic.Function.Basic
import Catamorphic.Lib.Json
import Catamorphic.Lib.Runs

/-!
# Workflow runs

A run follows its execution plan one step at a time. A step is made in attempts: the run's row
names the active one. An attempt may wait, for a signal at a pause or for a child run. The
module has the rows, and the updates of them that the coordinator's transactions are made of.
-/

namespace Catamorphic.Execution.Coordinator

abbrev RunId := Nat
abbrev AttemptId := Nat
abbrev PauseId := Nat

abbrev Json := JsonValue

inductive RunStatus
  | pending
  | running
  | waiting
  | paused
  | canceling
  | completed
  | failed
  | canceled
  deriving DecidableEq

/-- `ACTIVE_RUN_STATUSES` -/
def RunStatus.isActive : RunStatus → Bool
  | .pending | .running | .waiting => true
  | _ => false

/-- `TERMINAL_RUN_STATUSES` -/
def RunStatus.isTerminal : RunStatus → Bool
  | .completed | .failed | .canceled => true
  | _ => false

/-- The statuses that discard the run's buffered signals. -/
def RunStatus.discardsSignals : RunStatus → Bool
  | .canceling | .completed | .failed | .canceled => true
  | _ => false

inductive Phase
  | boundary
  | source
  | process
  | sink
  | pause
  | child
  deriving DecidableEq

inductive AttemptStatus
  | pending
  | running
  | waiting
  | completed
  | failed
  | canceled
  deriving DecidableEq

def AttemptStatus.isLive : AttemptStatus → Bool
  | .pending | .running | .waiting => true
  | _ => false

inductive Executor
  | boundary
  | batch
  deriving DecidableEq

/-- A step of a plan; the number its retry policy names, where it is a whole one. -/
structure Step where
  executor : Executor
  maxAttempts : Option Int
  deriving DecidableEq

def phaseFor (step : Step) : Phase :=
  match step.executor with
  | .boundary => .boundary
  | .batch => .source

def finiteInteger (value : Option Int) : Option Nat :=
  value.bind fun number => if 0 < number then some number.toNat else none

/-- The attempts a step has. -/
def Step.attempts (step : Step) : Nat := (finiteInteger step.maxAttempts).getD 1

/-- A row of `workflow_step_attempts`. -/
structure Attempt where
  runId : RunId
  stepIndex : Nat
  /-- The executor and the policy of its step. -/
  step : Step
  attempt : Nat
  status : AttemptStatus := .pending
  input : Json
  output : Option Json := none
  error : Option String := none
  startedAt : Option Nat := none
  /-- The state a call carried. -/
  callState : Option Json := none

/-- A row of `workflow_runs`, with its row of `workflow_run_states`. -/
structure Run where
  status : RunStatus := .pending
  phase : Phase
  /-- The run and the attempt that wait for this one. -/
  parent : Option (RunId × AttemptId) := none
  startedAt : Option Nat := none
  result : Option Json := none
  error : Option String := none
  cancelReason : Option String := none
  executionPlan : List Step
  currentStepIndex : Nat := 0
  currentInput : Json
  activeAttempt : Option AttemptId := none
  operatorPausePrevious : Option (RunStatus × Phase) := none

inductive PauseStatus
  | opened
  | resumed
  | timedOut
  | canceled
  deriving DecidableEq

structure Pause where
  id : PauseId
  runId : RunId
  attemptId : AttemptId
  status : PauseStatus := .opened
  state : Option Json
  timeoutAt : Option Nat
  signalName : Option Text
  resumeValue : Option Json := none
  resumeIdempotencyKey : Option Text := none
  resumePayloadHash : Option String := none
  resolvedAt : Option Nat := none

inductive SignalStatus
  | buffered
  | resumed
  | discarded
  deriving DecidableEq

structure Signal where
  sequence : Nat
  runId : RunId
  signalName : Text
  idempotencyKey : Text
  payloadHash : String
  value : Option Json
  status : SignalStatus := .buffered
  pauseId : Option PauseId := none
  resolvedAt : Option Nat := none

/-- How a pause ended. -/
inductive Resolution
  /-- By the signal with this sequence number. -/
  | signal (sequence : Nat)
  /-- By a request that named the pause. -/
  | resumed
  | timedOut
  | canceled
  deriving DecidableEq

structure World where
  now : Nat
  runs : RunId → Option Run
  attempts : AttemptId → Option Attempt
  /-- In the order they were created. -/
  pauses : List Pause
  /-- In the order of their sequence numbers. -/
  signals : List Signal
  nextRun : RunId
  nextAttempt : AttemptId
  nextPause : PauseId
  nextSequence : Nat
  /-- Every end of a pause, in order. -/
  resolved : List (PauseId × Resolution)

def empty (now : Nat) : World := ⟨now, fun _ => none, fun _ => none, [], [], 0, 0, 0, 0, []⟩

/-! ## Updates -/

def World.setRun (w : World) (runId : RunId) (run : Run) : World :=
  { w with runs := Function.update w.runs runId (some run) }

def World.setAttempt (w : World) (attemptId : AttemptId) (attempt : Attempt) : World :=
  { w with attempts := Function.update w.attempts attemptId (some attempt) }

/-- The trigger `discard_workflow_signals`. -/
def World.discardSignals (w : World) (runId : RunId) : World :=
  { w with
    signals := w.signals.map fun signal =>
      if signal.runId = runId ∧ signal.status = .buffered then
        { signal with status := .discarded, value := none, resolvedAt := some w.now }
      else signal }

/-- An update of the status, with its trigger. -/
def World.setStatus (w : World) (runId : RunId) (run : Run) : World :=
  if run.status.discardsSignals then (w.setRun runId run).discardSignals runId
  else w.setRun runId run

/-- `update workflow_runs set … where id = … and status in …` -/
def World.updateRun (w : World) (runId : RunId) (statuses : RunStatus → Bool) (set : Run → Run) :
    World :=
  match w.runs runId with
  | some run => if statuses run.status then w.setStatus runId (set run) else w
  | none => w

theorem updateRun_of {w : World} {runId : RunId} {run : Run} {statuses : RunStatus → Bool}
    {set : Run → Run} (hrun : w.runs runId = some run) (hstatus : statuses run.status = true) :
    w.updateRun runId statuses set = w.setStatus runId (set run) := by
  rw [World.updateRun, hrun]
  exact if_pos hstatus

/-- Open pauses are canceled. -/
def World.cancelPauses (w : World) (which : Pause → Bool) : World :=
  { w with
    pauses := w.pauses.map fun pause =>
      if which pause ∧ pause.status = .opened then
        { pause with status := .canceled, resolvedAt := some w.now }
      else pause
    resolved := w.resolved ++
      (w.pauses.filter fun pause => which pause ∧ pause.status = .opened).map fun pause =>
        (pause.id, .canceled) }

/-- Live attempts of some runs end together. -/
def World.endAttempts (w : World) (runs : RunId → Bool) (set : Attempt → Attempt) : World :=
  { w with
    attempts := fun attemptId => (w.attempts attemptId).map fun attempt =>
      if runs attempt.runId && attempt.status.isLive then set attempt else attempt }

def Signal.resume (signal : Signal) (pauseId : PauseId) (now : Nat) : Signal :=
  { signal with
    status := .resumed
    pauseId := some pauseId
    value := none
    resolvedAt := some now }

def World.resumeSignal (w : World) (sequence : Nat) (pauseId : PauseId) : World :=
  { w with
    signals := w.signals.map fun signal =>
      if signal.sequence = sequence then signal.resume pauseId w.now else signal }

def Pause.resume (pause : Pause) (idempotencyKey : Text) (payloadHash : String) (value : Json)
    (now : Nat) : Pause :=
  { pause with
    status := .resumed
    resumeValue := some value
    resumeIdempotencyKey := some idempotencyKey
    resumePayloadHash := some payloadHash
    resolvedAt := some now }

/-- A pause is resolved, for whatever reason. -/
def World.resolve (w : World) (pauseId : PauseId) (resolution : Resolution)
    (set : Pause → Pause) : World :=
  { w with
    pauses := w.pauses.map fun pause => if pause.id = pauseId then set pause else pause
    resolved := w.resolved ++ [(pauseId, resolution)] }

end Catamorphic.Execution.Coordinator
