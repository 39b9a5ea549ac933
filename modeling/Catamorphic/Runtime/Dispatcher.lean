import Mathlib.Algebra.GroupWithZero.Nat
import Mathlib.Data.List.Range
import Mathlib.Logic.Function.Basic
import Catamorphic.Lib.Runs

/-!
# The runtime supervisor's dispatcher

A supervisor takes invocations, runs at most `maxConcurrency` of them at a time, each in a
worker of its own, and keeps the rest in a queue. An invocation settles once: with what its
worker answered, canceled, timed out, or as failed in the supervisor itself; it may do so in any
of its phases. Answered invocations stay retained under their ids, so that a repeated `invoke`
gets the same promise.

A step is one callback: what runs between two awaits. What a worker does with its signal and
when it ends are not said: any event, answer or failure may come, late or never.
-/

namespace Catamorphic.Runtime

abbrev InvocationId := Nat
abbrev WaiterId := Nat
abbrev Time := Int
abbrev Text := List Char

/-- A JSON value, as its text. -/
abbrev Json := List Char

/-- The identity of an `InvocationState`. -/
abbrev Ref := Nat

/-! ## Requests, events and answers -/

structure ArtifactIdentity where
  deploymentArtifactId : Text
  artifactDigest : Text
  transformVersion : Text
  runtimeVersion : Text
  deriving DecidableEq, Repr

structure Request where
  invocationId : InvocationId
  artifact : ArtifactIdentity
  attempt : Nat
  /-- `none` where it is no date. -/
  deadlineAt : Option Time
  modulePath : Text
  /-- `kind`, the rest of `target`, `input`, `replay` and `env`. -/
  body : Json
  deriving DecidableEq, Repr

structure StepKey where
  nodeId : Text
  occurrence : Nat
  deriving DecidableEq, Repr

inductive WorkerEvent
  | stepStarted (step : StepKey) (name : Text) (input : Option Json)
  | stepCompleted (step : StepKey) (name : Text) (output : Option Json)
  | stepFailed (step : StepKey) (name : Text) (error : Text)
  deriving DecidableEq, Repr

inductive StepStatus
  | completed
  | failed
  deriving DecidableEq, Repr

structure StepEntry where
  step : StepKey
  name : Text
  status : StepStatus
  attempt : Nat
  input : Option Json
  output : Option Json
  error : Option Text
  startedAt : Time
  completedAt : Time
  deriving DecidableEq, Repr

inductive Outcome
  | completed (result : Option Json)
  | suspended (suspension : Json)
  | skipped (reason : Text)
  | rateLimited (retryAfterMs : Nat) (error : Text)
  | failed (error : Text)
  | canceled (error : Text)
  | timedOut (error : Text)
  deriving DecidableEq, Repr

structure Terminal where
  outcome : Outcome
  steps : List StepEntry
  deriving DecidableEq, Repr

inductive EventBody
  | accepted
  | started
  | worker (event : WorkerEvent)
  /-- An event of the terminal's own type. -/
  | terminal (outcome : Outcome)
  deriving DecidableEq, Repr

structure Event where
  sequence : Nat
  attempt : Nat
  timestamp : Time
  body : EventBody
  deriving DecidableEq, Repr

def Event.IsTerminal (event : Event) : Prop := ∃ outcome, event.body = .terminal outcome

inductive Answer
  | resolved (events : List Event) (terminal : Terminal)
  /-- A `RuntimeInvocationInfrastructureError` with this cause. -/
  | rejected (cause : Text)
  deriving DecidableEq, Repr

/-- The steps that ended, each with what its start said. -/
def completedStepLedger (events : List Event) : List StepEntry :=
  go [] [] events
where
  go (starts : List (StepKey × Option Json × Time)) (steps : List StepEntry) :
      List Event → List StepEntry
    | [] => steps
    | event :: rest =>
      match event.body with
      | .worker (.stepStarted step _ input) =>
        go ((step, input, event.timestamp) :: starts.filter (·.1 ≠ step)) steps rest
      | .worker (.stepCompleted step name output) =>
        match starts.lookup step with
        | some (input, startedAt) =>
          go (starts.filter (·.1 ≠ step)) (steps ++ [{
            step, name, status := .completed, attempt := event.attempt, input, output
            error := none, startedAt, completedAt := event.timestamp }]) rest
        | none => go starts steps rest
      | .worker (.stepFailed step name error) =>
        match starts.lookup step with
        | some (input, startedAt) =>
          go (starts.filter (·.1 ≠ step)) (steps ++ [{
            step, name, status := .failed, attempt := event.attempt, input, output := none
            error := some error, startedAt, completedAt := event.timestamp }]) rest
        | none => go starts steps rest
      | _ => go starts steps rest

/-! ## Invocations -/

inductive Status
  | queued
  | active
  | done
  deriving DecidableEq, Repr

/-- Where its call of `execute` stands. -/
inductive Execution
  | notCalled
  /-- It waits for the working directory. -/
  | directory
  /-- It waits for its worker. -/
  | working
  /-- It waits for its worker's end. -/
  | terminating
  | returned
  deriving DecidableEq, Repr

def Execution.UnderWay : Execution → Prop
  | .directory | .working | .terminating => True
  | _ => False

inductive Timer
  | unset
  | armed
  /-- The deadline had passed: a microtask is queued, which nothing clears. -/
  | microtask
  deriving DecidableEq, Repr

def Timer.clear : Timer → Timer
  | .armed => .unset
  | timer => timer

/-- `InvocationState` -/
structure Invocation where
  request : Request
  retainedBytes : Nat
  events : List Event := []
  answer : Option Answer := none
  status : Status := .queued
  aborted : Bool := false
  waiters : List WaiterId := []
  deadlineTimer : Timer := .unset
  execution : Execution := .notCalled
  deriving DecidableEq, Repr

structure Options where
  maxConcurrency : Nat
  /-- The constructor refuses another. -/
  positive : 1 ≤ maxConcurrency
  artifactIdentity : Option ArtifactIdentity := none
  maxRetainedInvocations : Nat := 1000
  maxRetainedBytes : Nat := 32 * 1024 * 1024
  maxInvocationBytes : Nat := 8 * 1024 * 1024
  maxQueuedInvocations : Nat := 256
  maxQueuedBytes : Nat := 32 * 1024 * 1024

/-- What is computed of values: the bytes of their JSON texts, the fingerprint of a request, and
whether a module's path stays inside the artifact's root. -/
structure Values where
  requestBytes : Request → Nat
  eventBytes : Event → Nat
  terminalBytes : Terminal → Nat
  fingerprint : Request → Text
  insideRoot : Text → Bool

/-- What was seen, for the statement of what holds. -/
inductive Note
  /-- An `invoke` was given the promise of an invocation. -/
  | answered (id : InvocationId) (ref : Ref)
  /-- A worker was created and called. -/
  | ran (id : InvocationId) (ref : Ref)
  | settled (ref : Ref) (answer : Answer)
  /-- The id is no longer retained. -/
  | forgot (id : InvocationId)
  /-- An `invoke` was refused for the queue's length, or for its bytes and its own. With how many
  invocations waited, and their bytes. -/
  | refusedNumber (waiting : Nat)
  | refusedBytes (waiting bytes : Nat)
  deriving DecidableEq, Repr

structure World where
  invocations : Ref → Option Invocation
  nextRef : Ref
  /-- A `Map`, in the order of insertion. -/
  states : List (InvocationId × Ref)
  queue : List Ref
  activeCount : Int
  /-- The calls of `execute` that have not returned. -/
  executing : List Ref
  now : Time
  /-- Newest first. -/
  log : List Note

def start : World where
  invocations := fun _ => none
  nextRef := 0
  states := []
  queue := []
  activeCount := 0
  executing := []
  now := 0
  log := []

def World.lookup (w : World) (id : InvocationId) : Option Ref := w.states.lookup id

def World.put (w : World) (r : Ref) (inv : Invocation) : World :=
  { w with invocations := Function.update w.invocations r (some inv) }

def World.note (w : World) (note : Note) : World := { w with log := note :: w.log }

/-- `states.delete`, for each of these. -/
def World.forget (w : World) (ids : List InvocationId) : World :=
  { w with
    states := w.states.filter (·.1 ∉ ids)
    log := ids.map .forgot ++ w.log }

/-- Those in the queue that wait to be run, as `health` counts them. -/
def World.waiting (w : World) : List Invocation :=
  (w.queue.filterMap w.invocations).filter (·.status = .queued)

def World.nextEvent (w : World) (inv : Invocation) (body : EventBody) : Event where
  sequence := inv.events.length + 1
  attempt := inv.request.attempt
  timestamp := w.now
  body

def bytesOf (invocations : List Invocation) : Nat := (invocations.map (·.retainedBytes)).sum

section Dispatcher

variable (options : Options) (values : Values)

/-! ## Settling -/

def World.failInfrastructure (w : World) (r : Ref) (cause : Text) : World :=
  match w.invocations r with
  | some inv =>
    if inv.status = .done then w
    else
      (((w.put r { inv with
          status := .done
          deadlineTimer := inv.deadlineTimer.clear
          waiters := []
          answer := some (.rejected cause) }).note (.settled r (.rejected cause))).forget
        [inv.request.invocationId])
  | none => w

def World.appendEvent (w : World) (r : Ref) (body : EventBody) : World :=
  match w.invocations r with
  | some inv =>
    if inv.status = .done then w
    else
      let next := w.nextEvent inv body
      let retainedBytes := inv.retainedBytes + values.eventBytes next
      if options.maxInvocationBytes < retainedBytes then
        (w.put r { inv with retainedBytes, aborted := true }).failInfrastructure r
          "Supervisor invocation events exceed their memory limit".toList
      else w.put r { inv with retainedBytes, events := inv.events ++ [next], waiters := [] }
  | none => w

/-- The ids that `pruneCompleted` deletes, of those that are done. -/
def prunable : Nat → Nat → List (InvocationId × Nat) → List InvocationId
  | _, _, [] => []
  | count, bytes, (id, retainedBytes) :: rest =>
    if count ≤ options.maxRetainedInvocations ∧ bytes ≤ options.maxRetainedBytes then []
    else id :: prunable (count - 1) (bytes - retainedBytes) rest

def World.completed (w : World) : List (InvocationId × Nat) :=
  w.states.filterMap fun (id, r) => match w.invocations r with
    | some inv => if inv.status = .done then some (id, inv.retainedBytes) else none
    | none => none

def World.pruneCompleted (w : World) : World :=
  w.forget (prunable options w.completed.length (w.completed.map (·.2)).sum w.completed)

/-- `finish`; what it calls as `pump` is given to it. -/
def World.finishThen (pump : World → World) (w : World) (r : Ref) (terminal : Terminal) : World :=
  match w.invocations r with
  | some inv =>
    if inv.status = .done then w
    else if options.maxInvocationBytes < inv.retainedBytes + values.terminalBytes terminal then
      w.failInfrastructure r "Supervisor invocation output exceeds its memory limit".toList
    else
      let events := inv.events ++ [w.nextEvent inv (.terminal terminal.outcome)]
      let settled := (w.put r { inv with
        retainedBytes := inv.retainedBytes + values.terminalBytes terminal
        status := .done
        deadlineTimer := inv.deadlineTimer.clear
        events
        waiters := []
        answer := some (.resolved events terminal) }).note
          (.settled r (.resolved events terminal))
      (if inv.status = .active then settled else pump settled).pruneCompleted options
  | none => w

def World.abort (w : World) (r : Ref) : World :=
  match w.invocations r with
  | some inv => w.put r { inv with aborted := true }
  | none => w

def World.finishTimedOutThen (pump : World → World) (w : World) (r : Ref) : World :=
  match w.invocations r with
  | some inv =>
    (w.abort r).finishThen options values pump r {
      outcome := .timedOut "Invocation deadline exceeded".toList
      steps := completedStepLedger inv.events }
  | none => w

/-! ## The queue -/

def World.deadlineExpired (w : World) (inv : Invocation) : Bool :=
  inv.request.deadlineAt.any (· ≤ w.now)

/-- An invocation becomes active, and `execute` is called. -/
def World.activate (w : World) (r : Ref) (inv : Invocation) : World :=
  { w.put r { inv with status := .active, execution := .directory } with
    activeCount := w.activeCount + 1
    executing := r :: w.executing }

/-- `execute` returns. -/
def World.release (w : World) (r : Ref) : World :=
  match w.invocations r with
  | some inv =>
    { w.put r { inv with execution := .returned } with
      activeCount := w.activeCount - 1
      executing := w.executing.erase r }
  | none => w

/-- `pump`, as often as the queue is long. An invocation whose deadline has passed settles and
gives its place back at once; the `pump` that follows it is this same loop. -/
def pumpLoop : Nat → World → World
  | 0, w => w
  | n + 1, w =>
    if w.activeCount < options.maxConcurrency then
      match w.queue with
      | [] => w
      | r :: queue =>
        let w := { w with queue }
        match w.invocations r with
        | some inv =>
          if inv.status ≠ .queued then pumpLoop n w
          else if w.deadlineExpired inv then
            pumpLoop n
              (((w.activate r inv).finishTimedOutThen options values (fun w => w) r).release
                r)
          else pumpLoop n (w.activate r inv)
        | none => pumpLoop n w
    else w

def World.pump (w : World) : World := pumpLoop options values w.queue.length w

def World.finish (w : World) (r : Ref) (terminal : Terminal) : World :=
  w.finishThen options values (World.pump options values) r terminal

def World.finishTimedOut (w : World) (r : Ref) : World :=
  w.finishTimedOutThen options values (World.pump options values) r

def World.scheduleDeadline (w : World) (r : Ref) : World :=
  match w.invocations r with
  | some inv =>
    w.put r { inv with
      deadlineTimer := if w.deadlineExpired inv then .microtask else .armed }
  | none => w

/-! ## Requests -/

/-- What `invoke` returns or throws. -/
inductive Invoked
  | promise (r : Ref)
  | artifactMismatch
  | conflict
  | queueFull
  | queueMemory
  | inputMemory
  | outsideRoot
  deriving DecidableEq, Repr

/-- A new invocation is retained under its id, and queued. -/
def World.accept (w : World) (request : Request) : World :=
  let created := ({ w with nextRef := w.nextRef + 1 }.put w.nextRef
    { request, retainedBytes := values.requestBytes request }).appendEvent options values w.nextRef
      .accepted
  { created.note (.answered request.invocationId w.nextRef) with
    states := created.states ++ [(request.invocationId, w.nextRef)]
    queue := created.queue ++ [w.nextRef] }

def World.invoke (w : World) (request : Request) : Invoked × World :=
  if options.artifactIdentity.any (· ≠ request.artifact) then (.artifactMismatch, w)
  else
    match w.lookup request.invocationId with
    | some r =>
      match w.invocations r with
      | some inv =>
        if values.fingerprint inv.request ≠ values.fingerprint request then (.conflict, w)
        else (.promise r, w.note (.answered request.invocationId r))
      | none => (.conflict, w)
    | none =>
      let queued := w.queue.filterMap w.invocations
      let bytes := values.requestBytes request
      if options.maxQueuedInvocations ≤ w.queue.length then
        (.queueFull, w.note (.refusedNumber w.waiting.length))
      else if options.maxQueuedBytes < bytesOf queued + bytes then
        (.queueMemory, w.note (.refusedBytes (bytesOf w.waiting) bytes))
      else if options.maxInvocationBytes < bytes then (.inputMemory, w)
      else if !values.insideRoot request.modulePath then (.outsideRoot, w)
      else
        (.promise w.nextRef,
          ((w.accept options values request).scheduleDeadline w.nextRef).pump options values)

def World.cancel (w : World) (id : InvocationId) : World :=
  match w.lookup id with
  | some r =>
    match w.invocations r with
    | some inv =>
      if inv.status = .done then w
      else (w.abort r).finish options values r {
        outcome := .canceled "Invocation was canceled".toList
        steps := completedStepLedger inv.events }
    | none => w
  | none => w

/-- `events` with a wait: a waiter where nothing is there yet, of 64 at most. -/
def World.poll (w : World) (id : InvocationId) (afterSequence : Nat) (waiter : WaiterId) : World :=
  match w.lookup id with
  | some r =>
    match w.invocations r with
    | some inv =>
      if inv.status = .done ∨ (inv.events.any (afterSequence < ·.sequence)) ∨
          64 ≤ inv.waiters.length then w
      else w.put r { inv with waiters := waiter :: inv.waiters }
    | none => w
  | none => w

/-! ## Steps -/

/-- How making the working directory, and then the worker, went. -/
inductive Prepared
  | noDirectory (error : Text)
  | noWorker (error : Text)
  | worker
  deriving DecidableEq, Repr

/-- `execute`, after it asked for the working directory. -/
def World.prepared (w : World) (r : Ref) (inv : Invocation) : Prepared → World
  | .noDirectory error => ((w.failInfrastructure r error).release r).pump options values
  | .noWorker error =>
    if inv.status = .done then (w.release r).pump options values
    else
      (((w.appendEvent options values r .started).failInfrastructure r error).release r).pump
        options values
  | .worker =>
    if inv.status = .done then (w.release r).pump options values
    else
      let w := w.appendEvent options values r .started
      match w.invocations r with
      | some inv =>
        (w.put r { inv with execution := .working }).note (.ran inv.request.invocationId r)
      | none => w

/-- The worker answered, or failed: its end is waited for. -/
def World.answered (w : World) (r : Ref) (result : Except Text Terminal) : World :=
  let w := match result with
    | .ok terminal => w.finish options values r terminal
    | .error error => w.failInfrastructure r error
  match w.invocations r with
  | some inv => w.put r { inv with execution := .terminating }
  | none => w

inductive Action
  | invoke (request : Request)
  | cancel (id : InvocationId)
  | poll (id : InvocationId) (afterSequence : Nat) (waiter : WaiterId)
  /-- A waiter's time is over. -/
  | wake (r : Ref) (waiter : WaiterId)
  | prepare (r : Ref) (prepared : Prepared)
  | event (r : Ref) (event : WorkerEvent)
  | answer (r : Ref) (result : Except Text Terminal)
  | terminated (r : Ref)
  | timer (r : Ref)
  | tick (now : Time)

def step (w : World) : Action → Option World
  | .invoke request => some (w.invoke options values request).2
  | .cancel id => some (w.cancel options values id)
  | .poll id afterSequence waiter => some (w.poll id afterSequence waiter)
  | .wake r waiter =>
    (w.invocations r).map fun inv => w.put r
      { inv with waiters := inv.waiters.filter (· ≠ waiter) }
  | .prepare r prepared =>
    match w.invocations r with
    | some inv =>
      if inv.execution = .directory then some (w.prepared options values r inv prepared) else
        none
    | none => none
  | .event r event =>
    match w.invocations r with
    | some inv =>
      match inv.execution with
      | .working | .terminating | .returned =>
        some (w.appendEvent options values r (.worker event))
      | _ => none
    | none => none
  | .answer r result =>
    match w.invocations r with
    | some inv =>
      if inv.execution = .working then some (w.answered options values r result) else none
    | none => none
  | .terminated r =>
    match w.invocations r with
    | some inv =>
      if inv.execution = .terminating then some ((w.release r).pump options values) else none
    | none => none
  | .timer r =>
    match w.invocations r with
    | some inv =>
      match inv.deadlineTimer with
      | .unset => none
      | .microtask =>
        some ((w.put r { inv with deadlineTimer := .unset }).finishTimedOut options values r)
      | .armed =>
        let w := w.put r { inv with deadlineTimer := .unset }
        if w.deadlineExpired inv then some (w.finishTimedOut options values r)
        else some (w.scheduleDeadline r)
    | none => none
  | .tick now => some { w with now }

/-! ## What holds of a supervisor -/

/-- The invocation that an id was answered with since it was last forgotten. -/
def answerOf : List Note → InvocationId → Option Ref
  | [], _ => none
  | .answered id' r :: log, id => if id' = id then some r else answerOf log id
  | .forgot id' :: log, id => if id' = id then none else answerOf log id
  | _ :: log, id => answerOf log id

/-- The work of an id was run since it was last forgotten. -/
def RanSince : List Note → InvocationId → Prop
  | [], _ => False
  | .ran id' _ :: log, id => id' = id ∨ RanSince log id
  | .forgot id' :: log, id => id' ≠ id ∧ RanSince log id
  | _ :: log, id => RanSince log id

/-- What may be noted after a log. -/
def Fits (log : List Note) : Note → Prop
  | .answered id r => ∀ r', answerOf log id = some r' → r' = r
  | .ran id r => ¬ RanSince log id ∧ ∀ answer, .settled r answer ∉ log
  | .settled r _ => ∀ answer, .settled r answer ∉ log
  | .forgot _ => True
  | .refusedNumber waiting => options.maxQueuedInvocations ≤ waiting
  | .refusedBytes waiting bytes => options.maxQueuedBytes < waiting + bytes

def History : List Note → Prop
  | [] => True
  | note :: log => Fits options log note ∧ History log

/-- **What holds of a supervisor.** -/
structure World.Sound (w : World) : Prop where
  /-- While an id is retained its work is run once and every `invoke` of it gets one promise; a
  promise settles once; no worker is started for an invocation that has settled; and an `invoke` is
  refused for a full queue where those that wait fill it. -/
  history : History options w.log
  /-- The promise of an invocation gives what it settled with. -/
  answers : ∀ r inv, w.invocations r = some inv → ∀ answer,
    inv.answer = some answer ↔ .settled r answer ∈ w.log
  numbered : ∀ r inv, w.invocations r = some inv →
    inv.events.map (·.sequence) = List.range' 1 inv.events.length
  /-- One terminal event comes last in an answered invocation. -/
  terminal : ∀ r inv events terminal, w.invocations r = some inv →
    inv.answer = some (.resolved events terminal) → events = inv.events ∧
      ∃ before last, events = before ++ [last] ∧ last.body = .terminal terminal.outcome ∧
        ∀ event ∈ before, ¬ event.IsTerminal
  active : ∀ refs : List Ref, refs.Nodup →
    (∀ r ∈ refs, ∃ inv, w.invocations r = some inv ∧ inv.status = .active) →
      refs.length ≤ options.maxConcurrency
  idle : (∀ r inv, w.invocations r = some inv → inv.status = .done ∧ ¬ inv.execution.UnderWay) →
    w.activeCount = 0 ∧ ∀ r inv, w.invocations r = some inv → inv.waiters = []

/-- **What a step must meet.** Where an id is new, no invocation in the queue has settled; and an
invocation whose worker is about to be created has room for its `started` event. -/
def Careful (w : World) : Action → Prop
  | .invoke request => w.lookup request.invocationId = none →
      ∀ r ∈ w.queue, ∀ inv, w.invocations r = some inv → inv.status = .queued
  | .prepare r _ => ∀ inv, w.invocations r = some inv → inv.status ≠ .done →
      inv.retainedBytes + values.eventBytes (w.nextEvent inv .started) ≤ options.maxInvocationBytes
  | _ => True

end Dispatcher

end Catamorphic.Runtime
