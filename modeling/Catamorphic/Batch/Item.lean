import Catamorphic.Batch.StepRecorder
import Catamorphic.Lib.Playback
import Catamorphic.Lib.Runs

/-!
# The runs of a batch item

An item is executed until its body returns. Each run starts with the steps that the table has
as completed, and its own are written back, under the attempt it was made in. At a batch step
the run suspends: the item joins a cohort, and waits until the cohort's outcome is written to
its row. A failed run is tried again, and one that got lost is delivered again.
-/

namespace Catamorphic.Batch

/-- The outcome of a batch step for one item of its cohort. -/
inductive BatchOutcome
  | succeeded (result : Json)
  | skipped (reason : String)
  | failed (error : String) (retryable : Bool)

/-- `MAX_BATCH_ITEM_ATTEMPTS` -/
def maxBatchItemAttempts : Nat := 5

/-- The batch an item is of: its code, what each step comes to, and the database. -/
structure Process where
  body : Body
  moduleExports : Exports
  fn : String → Nat → Value → Except Fault Value
  batch : String → Nat → BatchOutcome
  /-- what a `jsonb` column gives back of a text -/
  jsonb : Json → Json

/-- A JSON value as the table gives it back. -/
def Process.stored (w : Process) (value : Json) : Json := w.jsonb (jsonbText value)

/-- A row of `batch_item_steps` -/
structure StepRow where
  nodeId : String
  occurrence : Nat
  attempt : Nat
  status : StepStatus
  input : Option Json
  output : Option Json
  error : Option String

def StepRow.sameKey (row other : StepRow) : Bool :=
  row.nodeId = other.nodeId && row.occurrence = other.occurrence && row.attempt = other.attempt

/-- `insert … on conflict … do update set …` -/
def upsertStep (set : StepRow → StepRow) (rows : List StepRow) (row : StepRow) : List StepRow :=
  if rows.any (·.sameKey row) then rows.map fun old => if old.sameKey row then set old else old
  else rows ++ [row]

/-- The row is of a step that a later run is answered from. -/
def StepRow.recorded (row : StepRow) : Bool := row.status = .completed && row.output.isSome

def loadReplay (rows : List StepRow) : Replay :=
  rows.filterMap fun row =>
    if row.status = .completed then
      row.output.map (replayKey row.nodeId row.occurrence, ·)
    else none

def Process.row (w : Process) (attempt : Nat) (entry : StepEntry) : StepRow where
  nodeId := entry.nodeId
  occurrence := entry.occurrence
  attempt
  status := entry.status
  input := some (w.stored entry.input)
  output := entry.output.map w.stored
  error := entry.error

def Process.persistRuntimeSteps (w : Process) (rows : List StepRow) (attempt : Nat)
    (steps : List StepEntry) : List StepRow :=
  (steps.map (w.row attempt)).foldl (fun rows row => upsertStep (fun _ => row) rows row) rows

inductive ItemStatus
  | pending
  | waiting
  | running
  | succeeded
  | skipped
  | failed
  | canceled
  deriving DecidableEq

def isTerminalItem : ItemStatus → Bool
  | .succeeded | .skipped | .failed | .canceled => true
  | _ => false

/-- A row of `batch_items`, with its steps and the cohorts it waits in. -/
structure Item where
  status : ItemStatus
  attempt : Nat
  output : Option Json
  error : Option String
  rows : List StepRow
  members : List (String × Nat)

def Item.complete (item : Item) (status : ItemStatus) (output : Option Json)
    (error : Option String) : Item :=
  if isTerminalItem item.status then item else { item with status, output, error }

/-- The attempt of a run that a job asks for. -/
def Item.attemptOf (item : Item) (payloadAttempt : Nat) : Nat :=
  max payloadAttempt (if item.attempt = 0 then 1 else item.attempt)

/-- The row of a step at which the item waits. -/
def Process.waitingRow (w : Process) (attempt : Nat) (suspension : Suspension) : StepRow where
  nodeId := suspension.nodeId
  occurrence := suspension.occurrence
  attempt
  status := .waiting
  input := some (w.stored suspension.input)
  output := none
  error := none

/-- The item waits at the step, with a place in a cohort. -/
def Process.parkAtPhysicalStep (w : Process) (item : Item) (attempt : Nat)
    (suspension : Suspension) : Item :=
  let row := w.waitingRow attempt suspension
  { item with
    status := .waiting
    members := (suspension.nodeId, suspension.occurrence) :: item.members
    rows := upsertStep (fun old => { old with status := row.status, input := row.input })
      item.rows row }

/-- What is done with the receipt of a run; the flag tells that the job has no try left. -/
def Process.settleRun (w : Process) (item : Item) (attempt : Nat) (lastTry : Bool) :
    Terminal → Item
  | .completed result => item.complete .succeeded (some (w.stored result)) none
  | .suspended suspension => w.parkAtPhysicalStep item attempt suspension
  | .skipped reason => item.complete .skipped none (some reason)
  | .rateLimited _ error | .failed error | .interrupted error =>
    if lastTry then item.complete .failed none (some error)
    else { item with status := .pending, attempt := attempt + 1, error := some error }

/-- The run of an item that has these rows. -/
def Process.run (w : Process) (rows : List StepRow)
    (fn : String → Nat → Value → Except Fault Value) (budget : Nat) : Terminal × Recorder :=
  runBody w.moduleExports (loadReplay rows) fn w.body budget .start

/-- `executeItem` -/
def Process.executeItem (w : Process) (item : Item) (payloadAttempt : Nat)
    (run : Terminal × Recorder) (lastTry : Bool) : Item :=
  let attempt := item.attemptOf payloadAttempt
  let receipt := receiptOf run
  w.settleRun { item with
    status := .running
    attempt
    rows := w.persistRuntimeSteps item.rows attempt receipt.steps } attempt lastTry
    receipt.terminal

/-- The row of a cohort's outcome, where the item has one under this attempt. -/
def Process.settleRow (w : Process) (nodeId : String) (occurrence attempt : Nat)
    (outcome : BatchOutcome) (row : StepRow) : StepRow :=
  if row.nodeId = nodeId ∧ row.occurrence = occurrence ∧ row.attempt = attempt then
    match outcome with
    | .succeeded result =>
      { row with status := .completed, output := some (w.stored result), error := none }
    | .skipped reason => { row with status := .skipped, output := none, error := some reason }
    | .failed error _ => { row with status := .failed, output := none, error := some error }
  else row

/-- `persistPhysicalOutcomes`, for one member; `attempt` is the item's when it was read. -/
def Process.persistPhysicalOutcome (w : Process) (item : Item) (nodeId : String)
    (occurrence attempt : Nat) (outcome : BatchOutcome) : Item :=
  let item := { item with
    members := item.members.erase (nodeId, occurrence)
    rows := item.rows.map (w.settleRow nodeId occurrence attempt outcome) }
  match outcome with
  | .succeeded _ => { item with status := .pending, attempt }
  | .skipped reason => item.complete .skipped none (some reason)
  | .failed error retryable =>
    if retryable && attempt < maxBatchItemAttempts then
      { item with status := .pending, attempt := attempt + 1 }
    else item.complete .failed none (some error)

inductive Event
  /-- a run, with what its own steps came to and the calls it could make in its time -/
  | execute (payloadAttempt : Nat) (fn : String → Nat → Value → Except Fault Value)
      (budget : Nat) (lastTry : Bool)
  /-- a run that no receipt came of -/
  | lose (payloadAttempt : Nat)
  | settle (nodeId : String) (occurrence attempt : Nat) (outcome : BatchOutcome)

/-- One step of the item; `none` where it cannot happen. -/
def step (w : Process) (item : Item) : Event → Option Item
  | .execute payloadAttempt fn budget lastTry =>
    if isTerminalItem item.status then none
    else some (w.executeItem item payloadAttempt (w.run item.rows fn budget) lastTry)
  | .lose payloadAttempt =>
    if isTerminalItem item.status then none
    else some { item with status := .running, attempt := item.attemptOf payloadAttempt }
  | .settle nodeId occurrence attempt outcome =>
    if (nodeId, occurrence) ∈ item.members then
      some (w.persistPhysicalOutcome item nodeId occurrence attempt outcome)
    else none

def Item.new : Item := ⟨.pending, 0, none, none, [], []⟩

/-! ## The uninterrupted run -/

/-- The body's next call; `none` where it ends. -/
def Process.next (w : Process) (outcomes : List Outcome) : Option Call :=
  (w.body.next outcomes).getLeft?

/-- What the body is resumed with; nothing where the item ends. -/
def Process.resumed (w : Process) : BatchOutcome → Option Outcome
  | .succeeded result => some (.ok (w.stored result).toValue)
  | .skipped _ | .failed _ _ => none

/-- What a call comes to when each step has the outcome it has; `none` where it ends the item,
for a batch step may. -/
def Process.answer (w : Process) (occurrence : Nat) (call : Call) : Option Outcome :=
  match (unrecorded w.moduleExports w.fn call occurrence).1 with
  | .error (.suspension _) => w.resumed (w.batch call.nodeId occurrence)
  | outcome => some outcome

/-- Steps taken, as the path of a program. -/
abbrev Steps := List (Call × Outcome)

def occurrenceOf (path : Steps) (nodeId : String) : Nat :=
  Playback.occurrence Call.nodeId path nodeId

/-- The calls of one uninterrupted run, with what each came to. -/
abbrev Process.Direct (w : Process) : Steps → Prop :=
  Playback.Path w.next fun path call => w.answer (occurrenceOf path call.nodeId) call

/-- How the uninterrupted run ends after a path. -/
def Process.DirectEnd (w : Process) (path : Steps) (terminal : Terminal) : Prop :=
  w.Direct path ∧ w.body.next (Playback.outcomes path) = .inr terminal

def Recorder.path (r : Recorder) : Steps := r.taken.map fun taken => (taken.call, taken.outcome)

end Catamorphic.Batch
