import Catamorphic.Db.StorableText
import Catamorphic.Execution.RunRows

/-!
# The run coordinator

Every operation is a transaction that locks the runs it works on, a child before its parent. A
transaction that throws changes nothing. When a run ends, the attempt of its parent that waits
for it goes on in the same transaction, which may end the parent too, and so on up the tree.
Only a cancel tells the parent in a second transaction, unless its caller gave it one.
-/

namespace Catamorphic.Execution.Coordinator

open Option

/-- The active attempt of an active run. -/
def World.lockActiveAttempt (w : World) (attemptId : AttemptId) : Option (Run × Attempt) :=
  match w.attempts attemptId with
  | none => none
  | some attempt =>
    match w.runs attempt.runId with
    | none => none
    | some run =>
      if run.status.isActive && decide (run.activeAttempt = some attemptId) then
        some (run, attempt)
      else none

def World.createStepAttempt (w : World) (runId : RunId) (stepIndex : Nat) (descriptor : Step)
    (input : Json) (attempt : Nat) : World :=
  let attemptId := w.nextAttempt
  let w := { w.setAttempt attemptId
      { runId, stepIndex, step := descriptor, attempt, input } with nextAttempt := attemptId + 1 }
  match w.runs runId with
  | none => w
  | some run =>
    let run :=
      { run with
        currentStepIndex := stepIndex
        currentInput := input
        activeAttempt := some attemptId }
    w.setRun runId
      (if run.status.isActive then { run with status := .pending, phase := phaseFor descriptor }
      else run)

/-! ## Ends of runs -/

/-- A run that ended, as its parent is told. -/
structure Ended where
  childRunId : RunId
  output : Option Json := none
  error : Option String := none

/-- The next step, or the end of the run. -/
def World.advance (w : World) (runId : RunId) (completedStepIndex : Nat) (output : Json) :
    World × Option Ended :=
  match w.runs runId with
  | none => (w, none)
  | some run =>
    if run.status.isActive && decide (run.currentStepIndex = completedStepIndex) then
      match run.executionPlan[completedStepIndex + 1]? with
      | some next => (w.createStepAttempt runId (completedStepIndex + 1) next output 1, none)
      | none =>
        (w.setStatus runId
          { run with
            currentInput := output
            activeAttempt := none
            status := .completed
            result := some output
            error := none },
          some { childRunId := runId, output := some output })
    else (w, none)

def World.cleanupStepScope (w : World) (runId : RunId) (attemptId : AttemptId) : World :=
  w.cancelPauses fun pause => pause.runId = runId && pause.attemptId = attemptId

/-- Every live attempt of the run fails, its pauses first. -/
def World.cleanupRunScope (w : World) (runId : RunId) (error : String) : World :=
  let w := w.cancelPauses fun pause =>
    pause.runId = runId && (w.attempts pause.attemptId).any fun attempt =>
      attempt.runId = runId && attempt.status.isLive
  let w := w.endAttempts (· = runId) fun attempt =>
    { attempt with status := .failed, error := some error }
  match w.runs runId with
  | none => w
  | some run => w.setRun runId { run with operatorPausePrevious := none }

def World.failRun (w : World) (runId : RunId) (error : String)
    (statuses : RunStatus → Bool := RunStatus.isActive) : World × Option Ended :=
  let w := w.cleanupRunScope runId error
  match w.runs runId with
  | none => (w, none)
  | some run =>
    if statuses run.status then
      (w.setStatus runId { run with status := .failed, error := some error },
        some { childRunId := runId, error := some error })
    else (w, none)

/-- An attempt fails: another one where its policy allows, or the run fails. -/
def World.failAttempt (w : World) (attemptId : AttemptId) (run : Run) (attempt : Attempt)
    (error : String) (allowBoundaryRetry : Bool) : Option (World × Option Ended) :=
  let w := (w.cleanupStepScope attempt.runId attemptId).setAttempt attemptId
    { attempt with status := .failed, error := some error }
  if allowBoundaryRetry && attempt.step.executor = .boundary &&
      decide (attempt.attempt < attempt.step.attempts) then
    run.executionPlan[attempt.stepIndex]?.map fun descriptor =>
      (w.createStepAttempt attempt.runId attempt.stepIndex descriptor attempt.input
        (attempt.attempt + 1), none)
  else some (w.failRun attempt.runId error)

/-- What the step after a call receives. -/
def Attempt.called (attempt : Attempt) (output : Option Json) : Json :=
  match attempt.callState with
  | some state =>
    .object [(Text.ofString "result", output.getD .null), (Text.ofString "state", state)]
  | none => output.getD .null

/-- The attempt that waits for the ended run goes on. -/
def World.finishParent (w : World) (ended : Ended) : Option (World × Option Ended) :=
  match (w.runs ended.childRunId).bind Run.parent with
  | none => some (w, none)
  | some (parentRunId, attemptId) =>
    match w.lockActiveAttempt attemptId with
    | none => some (w, none)
    | some (run, attempt) =>
      if attempt.status = .waiting then
        -- An empty error is no error.
        match ended.error.filter (· ≠ "") with
        | some error => w.failAttempt attemptId run attempt error true
        | none =>
          let output := attempt.called ended.output
          let w := w.setAttempt attemptId
            { attempt with status := .completed, output := some output }
          some (w.advance parentRunId attempt.stepIndex output)
      else some (w, none)

/-- One run's end after the other, up the tree. -/
def finishParents : Nat → World × Option Ended → Option World
  | _, (w, none) => some w
  | 0, (w, some _) => some w
  | depth + 1, (w, some ended) => (w.finishParent ended).bind (finishParents depth)

/-- The rest of a transaction; a parent is older than its child. -/
def World.finish (result : World × Option Ended) : Option World :=
  finishParents (result.2.elim 0 fun ended => ended.childRunId + 1) result

def World.reconcileParentFromTerminalChild (w : World) (childRunId : RunId) : Option World :=
  match w.runs childRunId with
  | none => some w
  | some child =>
    if child.status.isTerminal then
      World.finish (w, some
        (if child.status = .completed then
          { childRunId, output := some (child.result.getD .null) }
        else
          { childRunId
            error := some (child.error.getD (child.cancelReason.getD
              (if child.status = .failed then "Child workflow failed"
              else "Child workflow canceled"))) }))
    else some w

/-! ## Steps -/

/-- `initialize`: a run with its first attempt. -/
def World.initializeRun (w : World) (plan : List Step) (input : Json)
    (parent : Option (RunId × AttemptId)) : Option World :=
  plan.head?.map fun first =>
    let runId := w.nextRun
    let w := { w.setRun runId
        { phase := phaseFor first, parent, executionPlan := plan, currentInput := input } with
      nextRun := runId + 1 }
    w.createStepAttempt runId 0 first input 1

/-- The attempt starts, or starts again; false where it cannot. -/
def World.beginAttempt (w : World) (runId : RunId) (attemptId : AttemptId) (ownsJob : Bool)
    (phase : Phase) : World × Bool :=
  match w.runs runId, w.attempts attemptId with
  | some run, some attempt =>
    if run.status.isActive && ownsJob && attempt.runId = runId &&
        (attempt.status = .pending || attempt.status = .running) then
      ((w.setAttempt attemptId
        { attempt with
          status := .running
          startedAt := some (attempt.startedAt.getD w.now) }).updateRun runId
        RunStatus.isActive fun run =>
          { run with status := .running, phase, startedAt := some (run.startedAt.getD w.now) },
        true)
    else (w, false)
  | _, _ => (w, false)

/-- `boundaryDeadline`: five minutes from the attempt's first start, in milliseconds. -/
def World.boundaryDeadline (w : World) (attemptId : AttemptId) (ownsJob : Bool) : Option Nat :=
  match w.lockActiveAttempt attemptId with
  | none => none
  | some (_, attempt) =>
    if attempt.status = .running && ownsJob then
      attempt.startedAt.map (· + 300000)
    else none

def World.setPhase (w : World) (runId : RunId) (attemptId : AttemptId) (status : RunStatus)
    (phase : Phase) : World :=
  match w.runs runId with
  | none => w
  | some run =>
    if run.status.isActive && (decide (run.status ≠ status) || decide (run.phase ≠ phase)) &&
        run.activeAttempt = some attemptId then
      w.setStatus runId { run with status, phase }
    else w

def World.completeStep (w : World) (attemptId : AttemptId) (output : Json) (ownsJob : Bool) :
    Option World :=
  match w.lockActiveAttempt attemptId with
  | none => some w
  | some (_, attempt) =>
    if (attempt.status = .running || attempt.status = .waiting) && ownsJob then
      let w := w.setAttempt attemptId
        { attempt with status := .completed, output := some output, error := none }
      World.finish (w.advance attempt.runId attempt.stepIndex output)
    else some w

def World.failStep (w : World) (attemptId : AttemptId) (error : String)
    (allowBoundaryRetry ownsJob : Bool) : Option World :=
  match w.lockActiveAttempt attemptId with
  | none => some w
  | some (run, attempt) =>
    if attempt.status.isLive && ownsJob then
      (w.failAttempt attemptId run attempt error allowBoundaryRetry).bind World.finish
    else some w

/-! ## Pauses and signals -/

def Pause.outcome (pause : Pause) (reason : String) (value : Option Json) : Json :=
  .object ([(Text.ofString "reason", .string (Text.ofString reason))] ++
    (value.map fun value => (Text.ofString "value", value)).toList ++
    (pause.state.map fun state => (Text.ofString "state", state)).toList)

/-- The attempt that waits at the pause goes on. -/
def World.resolvePause (w : World) (pause : Pause) (output : Json) : World × Option Ended :=
  match w.lockActiveAttempt pause.attemptId with
  | none => (w, none)
  | some (_, attempt) =>
    if attempt.status = .waiting then
      let w := w.setAttempt pause.attemptId
        { attempt with status := .completed, output := some output }
      w.advance pause.runId attempt.stepIndex output
    else (w, none)

def World.timeOut (w : World) (pause : Pause) : World × Option Ended :=
  (w.resolve pause.id .timedOut fun pause =>
    { pause with status := .timedOut, resolvedAt := some w.now }).resolvePause pause
      (pause.outcome "timed_out" none)

inductive SignalError
  | notFound
  | invalid (message : String)
  | limit (message : String)
  | conflict (message : String)
  | pauseNotFound (pauseId : PauseId)
  deriving DecidableEq

structure Receipt where
  sequence : Nat
  status : SignalStatus
  pauseId : Option PauseId
  deriving DecidableEq

/-- `signalReceipt` -/
def Signal.receipt (signal : Signal) : Receipt where
  sequence := signal.sequence
  status := signal.status
  pauseId := signal.pauseId

def runSignalMaxBytes : Nat := 64 * 1024
def runSignalMaxPending : Nat := 256
def runSignalMaxReceipts : Nat := 1024

/-- What a boundary's pause carries. -/
structure PauseTransition where
  timeout : Option String := none
  state : Option Json := none
  signal : Option Text := none

/-- What the transactions compute of values and texts. -/
structure Values where
  /-- The hash of `JSON.stringify(value)`. -/
  jsonHash : Json → String
  /-- The hash of the canonical JSON, and its bytes. -/
  payloadHash : Json → String
  encodedBytes : Json → Nat
  /-- The value that a `jsonb` column gives back. -/
  column : Json → Json
  /-- A duration in milliseconds; none where it throws. -/
  parseDuration : String → Option Nat

section

variable (values : Values)

/-- The milliseconds of the timeout, where there is one; none where it cannot be read. -/
def PauseTransition.duration (transition : PauseTransition) : Option (Option Nat) :=
  match transition.timeout with
  | none => some none
  | some timeout => (values.parseDuration timeout).map some

/-- A pause ends at its timeout, or with the first signal of its name; none where it stays open. -/
def World.resolveNamedPause (w : World) (pause : Pause) : Option (World × Option Ended) :=
  if pause.timeoutAt.any (· ≤ w.now) then some (w.timeOut pause)
  else
    match pause.signalName with
    | none => none
    | some name =>
      match w.signals.find? fun signal =>
          signal.runId = pause.runId && signal.signalName = name &&
            signal.status = .buffered with
      | none => none
      | some signal =>
        let value := signal.value.getD .null
        some (((w.resumeSignal signal.sequence pause.id).resolve pause.id
          (.signal signal.sequence) fun pause =>
            pause.resume signal.idempotencyKey (values.jsonHash value) value
              w.now).resolvePause pause (pause.outcome "resumed" value))

/-- A pause of an attempt that has none, of a name that no open pause of the run has. -/
def World.insertPause (w : World) (pause : Pause) : Option World :=
  if w.pauses.any fun other =>
      other.runId = pause.runId && (other.attemptId = pause.attemptId ||
        (other.status = .opened && other.signalName.isSome &&
          decide (other.signalName = pause.signalName))) then none
  else some { w with pauses := w.pauses ++ [pause], nextPause := w.nextPause + 1 }

def World.suspendForPause (w : World) (attemptId : AttemptId) (ownsJob : Bool)
    (transition : PauseTransition) : Option World :=
  match w.lockActiveAttempt attemptId with
  | none => some w
  | some (_, attempt) =>
    if attempt.status = .running && ownsJob then do
      let timeout ← transition.duration values
      let pause : Pause :=
        { id := w.nextPause
          runId := attempt.runId
          attemptId
          state := transition.state
          timeoutAt := timeout.map (w.now + ·)
          signalName := (transition.signal.filter (· ≠ [])).map storableText }
      let w ← w.insertPause pause
      let w := (w.setAttempt attemptId { attempt with status := .waiting }).updateRun
        attempt.runId RunStatus.isActive fun run =>
          { run with status := .waiting, phase := .pause }
      match w.resolveNamedPause values pause with
      | some result => World.finish result
      | none => some w
    else some w

/-- `signalPayload`: the stored name and the hash. -/
def signalPayload (signal idempotencyKey : Text) (value : Json) :
    Except SignalError (Text × String) :=
  if signal.length < 1 ∨ 255 < signal.length then
    .error (.invalid "signal must contain 1 to 255 characters")
  else if idempotencyKey.length < 1 ∨ 255 < idempotencyKey.length then
    .error (.invalid "idempotencyKey must contain 1 to 255 characters")
  else if runSignalMaxBytes < values.encodedBytes value then
    .error (.limit "Signal value exceeds 64 KiB")
  else .ok (storableText signal, values.payloadHash value)

/-- The world and the receipt; a throw of what follows an insert is none. -/
def World.signalByKey (w : World) (runId : RunId) (signal idempotencyKey : Text)
    (value : Json) : Except SignalError (Option (World × Receipt)) :=
  match signalPayload values signal idempotencyKey value with
  | .error error => .error error
  | .ok (name, hash) =>
    match w.runs runId with
    | none => .error .notFound
    | some run =>
      match w.signals.find? fun signal => signal.runId = runId &&
          signal.idempotencyKey = storableText idempotencyKey with
      | some existing =>
        if existing.signalName ≠ name ∨ existing.payloadHash ≠ hash then
          .error (.conflict "Signal idempotency key was used with different content")
        else .ok (some (w, existing.receipt))
      | none =>
        let received := w.signals.filter fun signal => signal.runId = runId
        if ¬run.status.isActive then .error (.conflict "Run generation is not active")
        else if runSignalMaxReceipts ≤ received.length then
          .error (.limit "Run has reached its 1024 signal receipt limit")
        else if runSignalMaxPending ≤
            (received.filter fun signal => signal.status = .buffered).length then
          .error (.limit "Run has reached its 256 pending signal limit")
        else
          let signal : Signal :=
            { sequence := w.nextSequence
              runId
              signalName := name
              idempotencyKey := storableText idempotencyKey
              payloadHash := hash
              value := some (values.column value) }
          let w :=
            { w with
              signals := w.signals ++ [signal]
              nextSequence := w.nextSequence + 1 }
          let resolved := (w.pauses.find? fun pause => pause.runId = runId &&
            decide (pause.signalName = some name) && pause.status = .opened).bind
              (w.resolveNamedPause values)
          .ok <| (resolved.elim (some w) World.finish).map fun w =>
            (w, ((w.signals.find? fun row => row.sequence = signal.sequence).getD
              signal).receipt)

def World.resumePause (w : World) (runId : RunId) (pauseId : PauseId) (idempotencyKey : Text)
    (value : Json) : Except SignalError (Option World) :=
  match w.runs runId with
  | none => .error (.conflict "Run is not active")
  | some run =>
    match w.pauses.find? fun pause => pause.id = pauseId && pause.runId = runId with
    | none => .error (.pauseNotFound pauseId)
    | some pause =>
      if pause.status ≠ .opened then
        if pause.resumeIdempotencyKey = some idempotencyKey ∧
            pause.resumePayloadHash = some (values.jsonHash value) then .ok (some w)
        else .error (.conflict "Pause is already resolved")
      else if ¬run.status.isActive then .error (.conflict "Run is not active")
      else if pause.timeoutAt.any (· ≤ w.now) then .ok (World.finish (w.timeOut pause))
      else
        .ok (World.finish ((w.resolve pauseId .resumed fun pause =>
          pause.resume (storableText idempotencyKey) (values.jsonHash value) value
            w.now).resolvePause pause (pause.outcome "resumed" value)))

end

/-- None where the job is deferred to the timeout. -/
def World.resolvePauseTimeout (w : World) (runId : RunId) (pauseId : PauseId) (ownsJob : Bool) :
    Option World :=
  match w.runs runId with
  | none => some w
  | some run =>
    if run.status.isActive && ownsJob then
      match w.pauses.find? fun pause => pause.id = pauseId && pause.runId = runId with
      | none => some w
      | some pause =>
        match pause.timeoutAt with
        | none => some w
        | some timeoutAt =>
          if pause.status ≠ .opened then some w
          else if w.now < timeoutAt then none
          else World.finish (w.timeOut pause)
    else some w

/-! ## Children, operators, cancels -/

/-- The world, and the child's id. -/
def World.suspendForChild (w : World) (attemptId : AttemptId) (ownsJob : Bool) (plan : List Step)
    (input : Json) (state : Option Json) : Option (World × Option RunId) :=
  match w.lockActiveAttempt attemptId with
  | none => some (w, none)
  | some (run, attempt) =>
    if run.status = .running && attempt.status = .running && ownsJob then
      let w := (w.setAttempt attemptId
        { attempt with
          status := .waiting
          callState := state.or attempt.callState }).updateRun attempt.runId RunStatus.isActive
          fun run => { run with status := .waiting, phase := .child }
      (w.initializeRun plan input (some (attempt.runId, attemptId))).map (·, some w.nextRun)
    else some (w, none)

def World.reconcileTerminalChild (w : World) (childRunId : RunId) (ownsJob : Bool) :
    Option World :=
  if ownsJob then w.reconcileParentFromTerminalChild childRunId else some w

/-- The active attempt, where a batch makes it. -/
def World.activeBatch (w : World) (run : Run) : Option Attempt :=
  (run.activeAttempt.bind w.attempts).filter fun attempt => attempt.step.executor = .batch

inductive OperatorPause
  | paused
  | alreadyPaused
  | resumed
  | alreadyRunning
  | unavailable
  deriving DecidableEq

/-- The phases of a batch. -/
def Phase.isBatch : Phase → Bool
  | .source | .process | .sink => true
  | _ => false

def World.pauseOperator (w : World) (runId : RunId) : World × OperatorPause :=
  match w.runs runId with
  | none => (w, .unavailable)
  | some run =>
    let activeAttempt := w.activeBatch run
    if run.status = .paused then
      (w, if activeAttempt.isSome && run.operatorPausePrevious.isSome then .alreadyPaused
        else .unavailable)
    else if run.status.isActive && run.phase.isBatch && activeAttempt.isSome &&
        run.operatorPausePrevious.isNone then
      (w.setStatus runId
        { run with status := .paused, operatorPausePrevious := some (run.status, run.phase) },
        .paused)
    else (w, .unavailable)

def World.resumeOperator (w : World) (runId : RunId) : World × OperatorPause :=
  match w.runs runId with
  | none => (w, .unavailable)
  | some run =>
    if (w.activeBatch run).isNone then (w, .unavailable)
    else if run.status ≠ .paused then
      (w, if run.status = .running && run.phase.isBatch && run.operatorPausePrevious.isNone then
        .alreadyRunning else .unavailable)
    else
      match run.operatorPausePrevious with
      | none => (w, .unavailable)
      | some (status, phase) =>
        (w.setStatus runId { run with status, phase, operatorPausePrevious := none }, .resumed)

def World.childrenOf (w : World) (runId : RunId) : List RunId :=
  (List.range w.nextRun).filter fun child =>
    (w.runs child).any fun run => run.parent.any fun parent => parent.1 = runId

/-- The loop of `lockRunHierarchy`, a run at a time. -/
def World.hierarchyFrom (w : World) : Nat → List RunId → Nat → List RunId
  | 0, runs, _ => runs
  | fuel + 1, runs, index =>
    match runs[index]? with
    | none => runs
    | some parent =>
      w.hierarchyFrom fuel (runs ++ (w.childrenOf parent).filter fun child => child ∉ runs)
        (index + 1)

def World.lockRunHierarchy (w : World) (root : RunId) : List RunId :=
  w.hierarchyFrom (w.nextRun + 1) [root] 0

/-- The transaction of a cancel, and the child whose parent is to be told after it. -/
def World.cancel (w : World) (runId : RunId) (reason : Option String) :
    Option (World × Option RunId) :=
  (w.runs runId).map fun root =>
    let runs := w.lockRunHierarchy runId
    let active := runs.filter fun id => (w.runs id).any fun run => !run.status.isTerminal
    if active = [] then (w, if root.parent.isSome then some runId else none)
    else
      let w' := (w.endAttempts (· ∈ active) fun attempt =>
        { attempt with status := .canceled }).cancelPauses fun pause => pause.runId ∈ active
      (active.foldl (fun w' id => w'.updateRun id (fun _ => true) fun run =>
          { run with status := .canceled, cancelReason := reason }) w',
        if root.parent.any fun parent => parent.1 ∉ runs then some runId else none)

/-- A cancel in its caller's transaction. -/
def World.cancelWithin (w : World) (runId : RunId) (reason : Option String) : Option World :=
  (w.cancel runId reason).bind fun (w, reconcile) =>
    reconcile.elim (some w) w.reconcileParentFromTerminalChild

/-- The statuses a tree may fail from. -/
def RunStatus.canFail (status : RunStatus) : Bool := status.isActive || status = .paused

def World.failRunTree (w : World) (runId : RunId) (error : String) : Option World :=
  match w.runs runId with
  | none => some w
  | some _ =>
    (w.lockRunHierarchy runId).foldlM (fun w' id =>
      if (w.runs id).any fun run => run.status.canFail then
        World.finish (w'.failRun id error RunStatus.canFail)
      else some w') w

/-- An exhausted job of no attempt. -/
def World.handleExhaustedJob (w : World) (runId : RunId) (error : String) : Option World :=
  match w.runs runId with
  | none => some w
  | some run =>
    if run.status.isTerminal then w.reconcileParentFromTerminalChild runId
    else if run.status.isActive then World.finish (w.failRun runId error)
    else some w

/-! ## The system -/

inductive Action
  | tick (now : Nat)
  /-- A root run starts. -/
  | start (plan : List Step) (input : Json)
  | beginAttempt (runId : RunId) (attemptId : AttemptId) (ownsJob : Bool) (phase : Phase)
  | setPhase (runId : RunId) (attemptId : AttemptId) (status : RunStatus) (phase : Phase)
  | completeStep (attemptId : AttemptId) (output : Json) (ownsJob : Bool)
  | failStep (attemptId : AttemptId) (error : String) (allowBoundaryRetry ownsJob : Bool)
  | suspendForPause (attemptId : AttemptId) (ownsJob : Bool) (transition : PauseTransition)
  | signalByKey (runId : RunId) (signal idempotencyKey : Text) (value : Json)
  | resumePause (runId : RunId) (pauseId : PauseId) (idempotencyKey : Text) (value : Json)
  | resolvePauseTimeout (runId : RunId) (pauseId : PauseId) (ownsJob : Bool)
  | suspendForChild (attemptId : AttemptId) (ownsJob : Bool) (plan : List Step) (input : Json)
      (state : Option Json)
  | reconcileTerminalChild (childRunId : RunId) (ownsJob : Bool)
  | pauseOperator (runId : RunId)
  | resumeOperator (runId : RunId)
  /-- The first transaction of a cancel of its own; the second is `reconcile`. -/
  | cancel (runId : RunId) (reason : Option String)
  | reconcile (childRunId : RunId)
  | cancelWithin (runId : RunId) (reason : Option String)
  | failRunTree (runId : RunId) (error : String)
  | handleExhaustedJob (runId : RunId) (error : String)

/-- Boundaries pause and call children, batches have phases: an attempt its handler may name. -/
def World.madeBy (w : World) (attemptId : AttemptId) (executor : Executor) : Bool :=
  (w.attempts attemptId).all fun attempt => attempt.step.executor = executor

/-- One committed transaction; one that throws commits nothing. -/
def step (values : Values) (w : World) : Action → Option World
  | .tick now => if w.now ≤ now then some { w with now } else none
  | .start plan input => w.initializeRun plan input none
  | .beginAttempt runId attemptId ownsJob phase =>
    some (w.beginAttempt runId attemptId ownsJob phase).1
  | .setPhase runId attemptId status phase =>
    if status.isActive && phase.isBatch && w.madeBy attemptId .batch then
      some (w.setPhase runId attemptId status phase)
    else none
  | .completeStep attemptId output ownsJob => w.completeStep attemptId output ownsJob
  | .failStep attemptId error allowBoundaryRetry ownsJob =>
    w.failStep attemptId error allowBoundaryRetry ownsJob
  | .suspendForPause attemptId ownsJob transition =>
    if w.madeBy attemptId .boundary then w.suspendForPause values attemptId ownsJob transition
    else none
  | .signalByKey runId signal idempotencyKey value =>
    match w.signalByKey values runId signal idempotencyKey value with
    | .ok result => result.map Prod.fst
    | .error _ => none
  | .resumePause runId pauseId idempotencyKey value =>
    match w.resumePause values runId pauseId idempotencyKey value with
    | .ok result => result
    | .error _ => none
  | .resolvePauseTimeout runId pauseId ownsJob => w.resolvePauseTimeout runId pauseId ownsJob
  | .suspendForChild attemptId ownsJob plan input state =>
    if w.madeBy attemptId .boundary then
      (w.suspendForChild attemptId ownsJob plan input state).map Prod.fst
    else none
  | .reconcileTerminalChild childRunId ownsJob => w.reconcileTerminalChild childRunId ownsJob
  | .pauseOperator runId => some (w.pauseOperator runId).1
  | .resumeOperator runId => some (w.resumeOperator runId).1
  | .cancel runId reason => (w.cancel runId reason).map Prod.fst
  | .reconcile childRunId => w.reconcileParentFromTerminalChild childRunId
  | .cancelWithin runId reason => w.cancelWithin runId reason
  | .failRunTree runId error => w.failRunTree runId error
  | .handleExhaustedJob runId error => w.handleExhaustedJob runId error

/-! ## What requests come to -/

variable {values : Values} {w w' : World} {runId : RunId} {attemptId : AttemptId}
  {pauseId : PauseId} {signal idempotencyKey : Text} {value : Json} {ownsJob : Bool}

/-- A pause that was just inserted is resolved at once, or stays open. -/
theorem suspendForPause_cases {transition : PauseTransition}
    (h : w.suspendForPause values attemptId ownsJob transition = some w') :
    w' = w ∨ ∃ run attempt pause w₁, w.lockActiveAttempt attemptId = some (run, attempt) ∧
      attempt.status = .running ∧ w.insertPause pause = some w₁ ∧
      (pause.id = w.nextPause ∧ pause.runId = attempt.runId ∧ pause.attemptId = attemptId ∧
        pause.status = .opened ∧ pause.resumeIdempotencyKey = none) ∧
      ∃ w₂, w₂ = (w₁.setAttempt attemptId { attempt with status := .waiting }).updateRun
          attempt.runId RunStatus.isActive (fun run =>
            { run with status := .waiting, phase := .pause }) ∧
        (w₂.resolveNamedPause values pause = none ∧ w' = w₂ ∨
          ∃ result, w₂.resolveNamedPause values pause = some result ∧
            World.finish result = some w') := by
  unfold World.suspendForPause at h
  split at h
  · exact .inl (some.inj h).symm
  · rename_i run attempt hlock
    split at h
    · rename_i hcond
      obtain ⟨timeout, -, h⟩ := bind_eq_some_iff.mp h
      obtain ⟨w₁, hinsert, h⟩ := bind_eq_some_iff.mp h
      refine .inr ⟨run, attempt, _, w₁, hlock, of_decide_eq_true (Bool.and_eq_true_iff.mp hcond).1,
        hinsert, ⟨rfl, rfl, rfl, rfl, rfl⟩, _, rfl, ?_⟩
      dsimp only at h
      split at h
      · rename_i result hresult
        exact .inr ⟨result, hresult, h⟩
      · rename_i hnone
        exact .inl ⟨hnone, (some.inj h).symm⟩
    · exact .inl (some.inj h).symm

/-- A signal is known already, or inserted and looked for by the open pause of its name. -/
theorem signalByKey_cases {receipt : Receipt}
    (h : w.signalByKey values runId signal idempotencyKey value = .ok (some (w', receipt))) :
    ∃ name hash, signalPayload values signal idempotencyKey value = .ok (name, hash) ∧
      ((∃ existing ∈ w.signals, existing.runId = runId ∧
          existing.idempotencyKey = storableText idempotencyKey ∧ existing.signalName = name ∧
          existing.payloadHash = hash ∧ w' = w) ∨
        (∀ other ∈ w.signals, other.runId = runId →
          other.idempotencyKey ≠ storableText idempotencyKey) ∧
        ∃ row : Signal, row = {
            sequence := w.nextSequence
            runId
            signalName := name
            idempotencyKey := storableText idempotencyKey
            payloadHash := hash
            value := some (values.column value) } ∧
        ∃ w₁ : World, w₁ = { w with
            signals := w.signals ++ [row], nextSequence := w.nextSequence + 1 } ∧
        ∃ found, w.pauses.find? (fun pause => pause.runId = runId &&
            decide (pause.signalName = some name) && pause.status = .opened) = found ∧
          ((∀ pause, found = some pause → w₁.resolveNamedPause values pause = none) ∧ w' = w₁ ∨
            ∃ pause result, found = some pause ∧
              w₁.resolveNamedPause values pause = some result ∧
              World.finish result = some w')) := by
  unfold World.signalByKey at h
  split at h
  · cases h
  · rename_i name hash hpayload
    refine ⟨name, hash, hpayload, ?_⟩
    split at h
    · cases h
    · split at h
      · rename_i existing hfind
        have hmatch := List.find?_some hfind
        simp only [Bool.and_eq_true, decide_eq_true_eq] at hmatch
        split at h
        · cases h
        · rename_i hsame
          rw [not_or, not_ne_iff, not_ne_iff] at hsame
          cases h
          exact .inl ⟨existing, List.mem_of_find?_eq_some hfind, hmatch.1, hmatch.2, hsame.1,
            hsame.2, rfl⟩
      · rename_i hnew
        dsimp only at h
        split at h
        · cases h
        · split at h
          · cases h
          · split at h
            · cases h
            · obtain ⟨w₂, hfinish, hw'⟩ := map_eq_some_iff.mp (Except.ok.inj h)
              obtain ⟨rfl, -⟩ := Prod.mk.inj hw'
              refine .inr ⟨fun other hother hrun hsame => ?_, _, rfl, _, rfl, _, rfl, ?_⟩
              · have hnot := List.find?_eq_none.mp hnew other hother
                simp [hrun, hsame] at hnot
              · cases hresolved : (w.pauses.find? fun pause => pause.runId = runId &&
                    decide (pause.signalName = some name) && pause.status = .opened).bind
                      (World.resolveNamedPause values _) with
                | none =>
                  rw [hresolved] at hfinish
                  exact .inl ⟨fun pause hfound => by rwa [hfound] at hresolved,
                    (some.inj hfinish).symm⟩
                | some result =>
                  rw [hresolved] at hfinish
                  obtain ⟨pause, hfound, hnamed⟩ := bind_eq_some_iff.mp hresolved
                  exact .inr ⟨pause, result, hfound, hnamed, hfinish⟩

/-- A pause was resumed by the same request, or is open and ends. -/
theorem resumePause_cases
    (h : w.resumePause values runId pauseId idempotencyKey value = .ok (some w')) :
    ∃ pause ∈ w.pauses, pause.id = pauseId ∧ pause.runId = runId ∧
      ((pause.status ≠ .opened ∧ (pause.resumeIdempotencyKey = some idempotencyKey ∧
          pause.resumePayloadHash = some (values.jsonHash value)) ∧ w' = w) ∨
        pause.status = .opened ∧ (pause.timeoutAt.any (· ≤ w.now) = true ∧
            World.finish (w.timeOut pause) = some w' ∨
          ¬pause.timeoutAt.any (· ≤ w.now) ∧
            World.finish ((w.resolve pause.id .resumed fun pause =>
              pause.resume (storableText idempotencyKey) (values.jsonHash value) value
                w.now).resolvePause pause (pause.outcome "resumed" value)) = some w')) := by
  unfold World.resumePause at h
  split at h
  · cases h
  · split at h
    · cases h
    · rename_i pause hfind
      have hmatch := List.find?_some hfind
      simp only [Bool.and_eq_true, decide_eq_true_eq] at hmatch
      obtain ⟨rfl, rfl⟩ := hmatch
      refine ⟨pause, List.mem_of_find?_eq_some hfind, rfl, rfl, ?_⟩
      split at h
      · rename_i hclosed
        split at h
        · rename_i hknown
          cases h
          exact .inl ⟨hclosed, hknown, rfl⟩
        · cases h
      · rename_i hopen
        rw [not_ne_iff] at hopen
        refine .inr ⟨hopen, ?_⟩
        split at h
        · cases h
        · split at h
          · rename_i hover
            exact .inl ⟨hover, Except.ok.inj h⟩
          · rename_i htime
            exact .inr ⟨htime, Except.ok.inj h⟩

theorem resolvePauseTimeout_cases (h : w.resolvePauseTimeout runId pauseId ownsJob = some w') :
    w' = w ∨ ∃ pause ∈ w.pauses, pause.id = pauseId ∧ pause.status = .opened ∧
      World.finish (w.timeOut pause) = some w' := by
  unfold World.resolvePauseTimeout at h
  split at h
  · exact .inl (some.inj h).symm
  · split at h
    · split at h
      · exact .inl (some.inj h).symm
      · rename_i pause hfind
        have hmatch := List.find?_some hfind
        simp only [Bool.and_eq_true, decide_eq_true_eq] at hmatch
        split at h
        · exact .inl (some.inj h).symm
        · split at h
          · exact .inl (some.inj h).symm
          · rename_i hopen
            split at h
            · cases h
            · exact .inr ⟨pause, List.mem_of_find?_eq_some hfind, hmatch.1, not_ne_iff.mp hopen, h⟩
    · exact .inl (some.inj h).symm

end Catamorphic.Execution.Coordinator
