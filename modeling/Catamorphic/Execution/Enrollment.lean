import Catamorphic.Execution.RunCoordinator

/-!
# Enrollment by correlation key

A trigger with a correlation key reads the live run of the key, prepares for long, and starts its
run in one transaction: the live run is read and locked again, canceled where the trigger
observed it and replaces it, and the new row goes into a unique index over live runs. What others
commit between the statements of the transaction, they read; a row that it locked, they wait for.
-/

namespace Catamorphic.Execution.Enrollment

open Coordinator

/-- What a live run is unique by. -/
structure Key where
  projectId : String
  workflowName : String
  correlationKey : String
  deriving DecidableEq

inductive EnrollmentConflictPolicy
  | ignore
  | error
  | restart
  deriving DecidableEq

/-- The arguments of a trigger; those without a key start runs as `Action.start`. -/
structure Request where
  key : Key
  onConflict : EnrollmentConflictPolicy := .ignore
  plan : List Step
  input : Json := .null

inductive Outcome
  /-- A new run, and the one it replaces. -/
  | started (runId : RunId) (replaced : Option RunId)
  | existing (runId : RunId)
  /-- `RunEnrollmentConflictError` -/
  | conflict (runId : Option RunId)
  /-- Another error, or a crash. -/
  | failed
  deriving DecidableEq

inductive Stage
  /-- Source, admission, connections and artifact, before the transaction. -/
  | preparing
  /-- `select … for update` saw this row, and waits for it. -/
  | selected (found : Option RunId)
  | locked (replacing : Option RunId)
  /-- The new row is in the index, and not committed. -/
  | inserted (replacing : Option RunId)
  /-- The index refused the row, and the transaction was rolled back. -/
  | refused
  | ended (outcome : Outcome)
  deriving DecidableEq

/-- The row that a transaction has locked. -/
def Stage.held : Stage → Option RunId
  | .locked replacing => replacing
  | .inserted replacing => replacing
  | _ => none

def Stage.isInserted : Stage → Bool
  | .inserted _ => true
  | _ => false

def Stage.isEnded : Stage → Bool
  | .ended _ => true
  | _ => false

structure Trigger where
  request : Request
  supersededRunId : Option RunId := none
  stage : Stage := .preparing

structure Service where
  /-- The rows that are committed. -/
  world : World
  /-- The key columns of a run; a child has none. -/
  keys : RunId → Option Key
  triggers : List Trigger

def empty (now : Nat) : Service := ⟨Coordinator.empty now, fun _ => none, []⟩

namespace Service

/-- `status not in ('completed', 'failed', 'canceled')` -/
def live (s : Service) (runId : RunId) : Bool :=
  (s.world.runs runId).any fun run => !run.status.isTerminal

def findActiveByKey (s : Service) (key : Key) : Option RunId :=
  (List.range s.world.nextRun).find? fun runId => decide (s.keys runId = some key) && s.live runId

/-- `resolveEnrollmentConflict` -/
def resolveEnrollmentConflict (s : Service) (request : Request) : Trigger :=
  match s.findActiveByKey request.key with
  | none => { request }
  | some existing =>
    match request.onConflict with
    | .error => { request, stage := .ended (.conflict (some existing)) }
    | .ignore => { request, stage := .ended (.existing existing) }
    | .restart => { request, supersededRunId := some existing }

/-- `resolveEnrollmentRace` -/
def resolveEnrollmentRace (s : Service) (request : Request) : Outcome :=
  match s.findActiveByKey request.key with
  | some winner => if request.onConflict = .ignore then .existing winner else .conflict
      (some winner)
  | none => .conflict none

def setTrigger (s : Service) (t : Nat) (trigger : Trigger) : Service :=
  { s with triggers := s.triggers.set t trigger }

/-- The transaction begins; only a restart selects the run that it replaces. -/
def select (s : Service) (t : Nat) (trigger : Trigger) : Option Service :=
  if trigger.stage = .preparing then
    some (s.setTrigger t { trigger with
        stage := .selected
          (if trigger.supersededRunId.isSome then s.findActiveByKey trigger.request.key else none)
            })
  else none

/-- The row is locked when no other transaction holds it; one that has ended is found no more. -/
def lock (s : Service) (t : Nat) (trigger : Trigger) : Option Service :=
  match trigger.stage with
  | .selected none => some (s.setTrigger t { trigger with stage := .locked none })
  | .selected (some found) =>
    if s.triggers.any fun other => decide (other.stage.held = some found) then none
    else
      some (s.setTrigger t { trigger with
          stage :=
            if s.live found then
              if trigger.supersededRunId = some found then .locked (some found)
              else .ended (.conflict (some found))
            else .locked none })
  | _ => none

/-- Another live run with the key, but for the one that is canceled in this transaction. -/
def occupied (s : Service) (key : Key) (replacing : Option RunId) : Bool :=
  (List.range s.world.nextRun).any fun runId =>
    decide (s.keys runId = some key) && s.live runId && decide (replacing ≠ some runId)

/-- The row is inserted, after the cancel; an insert of the same key waits for another's end. -/
def insert (s : Service) (t : Nat) (trigger : Trigger) : Option Service :=
  match trigger.stage with
  | .locked replacing =>
    if s.triggers.any fun other =>
        other.stage.isInserted && decide (other.request.key = trigger.request.key) then none
    else
      some (s.setTrigger t { trigger with
          stage := if s.occupied trigger.request.key replacing then .refused
            else .inserted replacing })
  | _ => none

/-- The reason of the cancel. -/
def reason (key : Key) : String :=
  "Re-enrolled for correlation key '" ++ key.correlationKey ++ "'"

/-- What the transaction wrote, in the table: the cancel, the row with its key, the first job. -/
def commit (s : Service) (t : Nat) (trigger : Trigger) : Option Service :=
  match trigger.stage with
  | .inserted replacing => do
    let canceled ← replacing.elim (some s.world) fun runId =>
      s.world.cancelWithin runId (some (reason trigger.request.key))
    let world ← canceled.initializeRun trigger.request.plan trigger.request.input none
    some
      { world
        keys := Function.update s.keys canceled.nextRun (some trigger.request.key)
        triggers := s.triggers.set t
          { trigger with stage := .ended (.started canceled.nextRun replacing) } }
  | _ => none

def resolve (s : Service) (t : Nat) (trigger : Trigger) : Option Service :=
  if trigger.stage = .refused then
    some (s.setTrigger t { trigger with stage := .ended (s.resolveEnrollmentRace trigger.request) })
  else none

/-- An error or a crash at any stage: the transaction is rolled back. -/
def fail (s : Service) (t : Nat) (trigger : Trigger) : Option Service :=
  if trigger.stage.isEnded then none
  else some (s.setTrigger t { trigger with stage := .ended .failed })

end Service

inductive Action
  | request (request : Request)
  | select (t : Nat)
  | lock (t : Nat)
  | insert (t : Nat)
  | commit (t : Nat)
  | resolve (t : Nat)
  | fail (t : Nat)
  /-- Another transaction on the runs. -/
  | run (action : Coordinator.Action)

/-- Another transaction waits for the rows that triggers have locked. -/
def Service.mayRun (s : Service) (world : World) : Bool :=
  s.triggers.all fun trigger => trigger.stage.held.all fun runId =>
    decide ((world.runs runId).map Run.status = (s.world.runs runId).map Run.status)

def step (values : Values) (s : Service) : Action → Option Service
  | .request request =>
    some { s with triggers := s.triggers ++ [s.resolveEnrollmentConflict request] }
  | .select t => s.triggers[t]?.bind (s.select t)
  | .lock t => s.triggers[t]?.bind (s.lock t)
  | .insert t => s.triggers[t]?.bind (s.insert t)
  | .commit t => s.triggers[t]?.bind (s.commit t)
  | .resolve t => s.triggers[t]?.bind (s.resolve t)
  | .fail t => s.triggers[t]?.bind (s.fail t)
  | .run action =>
    match Coordinator.step values s.world action with
    | none => none
    | some world => if s.mayRun world then some { s with world } else none

end Catamorphic.Execution.Enrollment
