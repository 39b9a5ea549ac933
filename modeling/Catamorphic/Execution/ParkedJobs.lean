import Catamorphic.Execution.Jobs
import Catamorphic.Execution.RunCoordinator
import Catamorphic.Lib.RowLocks

/-!
# Jobs that wait for a paused run

A worker that finds its job's run paused gives the job back for an hour's time, and the resume of
the run pulls the job forward again. Each is a transaction of several statements: the release
shares the run's row and then updates the job, the resume holds the run's row, updates it and
then updates the jobs it finds pending, one by one. What a transaction wrote is seen by others
when it commits.
-/

namespace Catamorphic.Execution.Parking

open Runs RowLocks Jobs Function
open Coordinator (RunStatus Phase)

abbrev TxnId := Nat
abbrev RunId := String
abbrev JobId := String

/-- What the transactions read of a run: its row, and of its state whether a batch is active and
what the operator's pause keeps. -/
structure RunRow where
  status : RunStatus
  phase : Phase
  batch : Bool
  operatorPausePrevious : Option (RunStatus × Phase) := none
  deriving DecidableEq

inductive ReleaseStage
  | begun
  /-- The run's row is shared. -/
  | checked (makeImmediatelyAvailable : Bool)
  | dated (availableAt : Nat)
  /-- Whether a row was updated. -/
  | written (updated : Bool)
  deriving DecidableEq

inductive ResumeStage
  | begun
  /-- The run's row is held, and the run is paused. -/
  | locked (previous : RunStatus × Phase)
  | dated (previous : RunStatus × Phase) (now : Nat)
  /-- The run's row is updated. -/
  | changed (now : Nat)
  /-- The pending jobs that the last statement found and has not come to. -/
  | waking (now : Nat) (left : List JobId)
  | unavailable
  deriving DecidableEq

inductive PauseStage
  | begun
  | locked (run : RunRow)
  | changed
  | unavailable
  deriving DecidableEq

inductive Txn
  | release (jobId : JobId) (lease : Lease) (parkedForPausedRunId : RunId) (availableAt : Nat)
      (stage : ReleaseStage)
  | resumeOperator (runId : RunId) (stage : ResumeStage)
  | pauseOperator (runId : RunId) (stage : PauseStage)
  deriving DecidableEq

structure World where
  now : Nat
  runs : Store RunId RunRow TxnId
  /-- Who shares a run's row. -/
  shared : RunId → List TxnId
  jobs : Store JobId Entry TxnId
  /-- The ids of the jobs. -/
  jobIds : List JobId
  txns : TxnId → Option Txn
  /-- The runs of the jobs that a release for a paused run left pending, but for those that were
  claimed, canceled or put off since. -/
  released : JobId → Option RunId

def start (now : Nat) (runs : RunId → Option RunRow) : World where
  now
  runs := .start runs
  shared := fun _ => []
  jobs := .start fun _ => none
  jobIds := []
  txns := fun _ => none
  released := fun _ => none

def World.setTxn (w : World) (t : TxnId) (txn : Txn) : World :=
  { w with txns := update w.txns t (some txn) }

/-- Nobody else holds the run's row, or shares it. -/
def World.lockable (w : World) (t : TxnId) (runId : RunId) : Bool :=
  w.runs.free t runId && (w.shared runId).isEmpty

/-! ## The statements -/

/-- `for share` -/
def World.share (w : World) (t : TxnId) (runId : RunId) : Option World :=
  if w.runs.free t runId then
    some { w with shared := update w.shared runId (t :: w.shared runId) }
  else none

def World.isPaused (w : World) (runId : RunId) : Bool :=
  (w.runs.rows runId).any fun run => run.status = .paused

/-- The next statement of `release`; none while it waits for another transaction. -/
def World.release (w : World) (t : TxnId) (jobId : JobId) (lease : Lease) (runId : RunId)
    (availableAt : Nat) : ReleaseStage → Option World
  | .begun => (w.share t runId).map fun w' =>
    w'.setTxn t (.release jobId lease runId availableAt (.checked !w.isPaused runId))
  | .checked makeImmediatelyAvailable =>
    some (w.setTxn t (.release jobId lease runId availableAt
      (.dated (if makeImmediatelyAvailable then w.now else availableAt))))
  | .dated at' =>
    (w.jobs.update t jobId (fun entry : Entry => entry.job.heldBy w.now lease)
      fun entry => entry.release w.now lease at' false).map fun jobs =>
        { w with jobs }.setTxn t (.release jobId lease runId availableAt
          (.written ((w.jobs.view t jobId).any fun entry : Entry =>
            entry.job.heldBy w.now lease)))
  | .written _ => none

/-- The rows that `makeRunAvailable` finds. -/
def parkedRow (runId : RunId) (now : Nat) (entry : Entry) : Bool :=
  entry.job.workflowRunId = runId && entry.job.status = .pending && now < entry.job.availableAt

/-- Where a resume goes on from the run that it locked. -/
def RunRow.resumeStage (run : RunRow) : ResumeStage :=
  match run.operatorPausePrevious with
  | some previous =>
    if run.batch && run.status = .paused then .locked previous else .unavailable
  | none => .unavailable

def World.resumeOperator (w : World) (t : TxnId) (runId : RunId) : ResumeStage → Option World
  | .begun =>
    match w.runs.rows runId with
    | none => some (w.setTxn t (.resumeOperator runId .unavailable))
    | some run =>
      if w.lockable t runId then
        some ({ w with runs := w.runs.hold t runId (some run) }.setTxn t
          (.resumeOperator runId run.resumeStage))
      else none
  | .locked previous => some (w.setTxn t (.resumeOperator runId (.dated previous w.now)))
  | .dated previous now =>
    match w.runs.view t runId with
    | none => none
    | some run =>
      some ({ w with
        runs := w.runs.hold t runId (some { run with
          status := previous.1
          phase := previous.2
          operatorPausePrevious := none }) }.setTxn t (.resumeOperator runId (.changed now)))
  | .changed now =>
    some (w.setTxn t (.resumeOperator runId (.waking now
      (w.jobIds.filter fun jobId => (w.jobs.view t jobId).any (parkedRow runId now)))))
  | .waking _ [] => none
  | .waking now (jobId :: left) =>
    (w.jobs.update t jobId (parkedRow runId now) fun entry => entry.makeAvailable now).map
      fun jobs => { w with jobs }.setTxn t (.resumeOperator runId (.waking now left))
  | .unavailable => none

def World.pauseOperator (w : World) (t : TxnId) (runId : RunId) : PauseStage → Option World
  | .begun =>
    match w.runs.rows runId with
    | none => some (w.setTxn t (.pauseOperator runId .unavailable))
    | some run =>
      if w.lockable t runId then
        some ({ w with runs := w.runs.hold t runId (some run) }.setTxn t
          (.pauseOperator runId (if run.status.isActive && run.phase.isBatch && run.batch &&
                run.operatorPausePrevious.isNone then .locked run
            else .unavailable)))
      else none
  | .locked run =>
    some ({ w with
      runs := w.runs.hold t runId (some { run with
        status := .paused
        operatorPausePrevious := some (run.status, run.phase) }) }.setTxn t
          (.pauseOperator runId .changed))
  | .changed => none
  | .unavailable => none

/-- A transaction whose statements are all done. -/
def Txn.finished : Txn → Bool
  | .release _ _ _ _ (.written _) => true
  | .resumeOperator _ (.waking _ []) | .resumeOperator _ .unavailable => true
  | .pauseOperator _ .changed | .pauseOperator _ .unavailable => true
  | _ => false

/-- The transaction's locks are given up. -/
def World.unlock (w : World) (t : TxnId) : World :=
  { w with
    shared := fun runId => (w.shared runId).filter fun other => other ≠ t
    txns := update w.txns t none }

def World.rollback (w : World) (t : TxnId) : World :=
  { w with runs := w.runs.rollback t, jobs := w.jobs.rollback t }.unlock t

/-- The jobs that are left pending for a paused run, once the transaction commits. -/
def World.releasedBy (w : World) : Txn → JobId → Option RunId
  | .release jobId _ runId _ (.written true) => update w.released jobId (some runId)
  | _ => w.released

def World.commit (w : World) (t : TxnId) (txn : Txn) : World :=
  { w with
    runs := w.runs.commit t
    jobs := w.jobs.commit t
    released := w.releasedBy txn }.unlock t

/-! ## Everybody else -/

/-- What other transactions do to a job, each in one statement. -/
inductive Change
  | claim (workerId leaseToken : String) (leaseSeconds : Nat)
  | heartbeat (lease : Lease) (leaseSeconds : Nat)
  | complete (lease : Lease)
  | fail (hostNow : Nat) (lease : Lease) (error : String) (retryAt : Option Nat)
  /-- A release for another reason than a paused run. -/
  | release (lease : Lease) (availableAt : Nat) (immediate : Bool)
  | cancel
  | makeAvailable (availableAt : Nat)
  | makeJobAvailable (availableAt : Nat)
  | redrive (availableAt : Nat)
  | requeueExpired
  | revive (new : NewJob)

def Change.apply (now : Nat) (entry : Entry) : Change → Entry
  | .claim workerId leaseToken leaseSeconds => entry.claim now workerId leaseToken leaseSeconds
  | .heartbeat lease leaseSeconds => entry.heartbeat now lease leaseSeconds
  | .complete lease => entry.complete now lease
  | .fail hostNow lease error retryAt => entry.fail now hostNow lease error retryAt
  | .release lease availableAt immediate => entry.release now lease availableAt immediate
  | .cancel => entry.cancel now
  | .makeAvailable availableAt => entry.makeAvailable availableAt
  | .makeJobAvailable availableAt => entry.makeJobAvailable availableAt
  | .redrive availableAt => entry.redrive availableAt
  | .requeueExpired => entry.requeueExpired now
  | .revive new => entry.reviveTerminalJob new now

inductive Event
  | tick (now : Nat)
  | enqueue (jobId : JobId) (new : NewJob)
  /-- A worker found its job's run paused. -/
  | release (t : TxnId) (jobId : JobId) (lease : Lease) (availableAt : Nat)
  | resumeOperator (t : TxnId) (runId : RunId)
  | pauseOperator (t : TxnId) (runId : RunId)
  /-- A transaction's next statement. -/
  | advance (t : TxnId)
  | commit (t : TxnId)
  | rollback (t : TxnId)
  | change (jobId : JobId) (change : Change)
  /-- An active run goes on. -/
  | setPhase (runId : RunId) (status : RunStatus) (phase : Phase) (batch : Bool)
  /-- A run ends, in a transaction that cancels its pending and running jobs. -/
  | finish (runId : RunId) (status : RunStatus)

def World.begin (w : World) (t : TxnId) (txn : Txn) : Option World :=
  if (w.txns t).isNone then some (w.setTxn t txn) else none

/-- A change leaves a job pending, and due no later than it was. -/
def keepsDue (before after : Entry) : Bool :=
  after.job.status = .pending && after.job.availableAt ≤ before.job.availableAt

/-- One statement on a row that no transaction holds. -/
def World.change (w : World) (jobId : JobId) (change : Entry → Entry) : Option World :=
  match w.jobs.held jobId, w.jobs.rows jobId with
  | none, some entry =>
    some { w with
      jobs := { w.jobs with rows := update w.jobs.rows jobId (some (change entry)) }
      released :=
        if keepsDue entry (change entry) then w.released
        else update w.released jobId none }
  | _, _ => none

/-- A job of the run that has not ended. -/
def liveJob (runId : RunId) (entry : Entry) : Bool :=
  entry.job.workflowRunId = runId && !entry.job.status.isTerminal

def World.cancelJobs (w : World) (runId : RunId) : World :=
  { w with
    jobs := { w.jobs with
      rows := fun jobId => (w.jobs.rows jobId).map fun entry =>
        if liveJob runId entry then entry.cancel w.now else entry }
    released := fun jobId =>
      if (w.jobs.rows jobId).any (liveJob runId) then none else w.released jobId }

def step (w : World) : Event → Option World
  | .tick now => if w.now ≤ now then some { w with now } else none
  | .enqueue jobId new =>
    if (w.jobs.rows jobId).isNone then
      some { w with
        jobs := { w.jobs with
          rows := update w.jobs.rows jobId (some ⟨new.row jobId w.now, [], 0, 0⟩) }
        jobIds := w.jobIds ++ [jobId] }
    else none
  | .release t jobId lease availableAt =>
    (w.jobs.rows jobId).bind fun entry =>
      w.begin t (.release jobId lease entry.job.workflowRunId availableAt .begun)
  | .resumeOperator t runId => w.begin t (.resumeOperator runId .begun)
  | .pauseOperator t runId => w.begin t (.pauseOperator runId .begun)
  | .advance t =>
    match w.txns t with
    | none => none
    | some (.release jobId lease runId availableAt stage) =>
      w.release t jobId lease runId availableAt stage
    | some (.resumeOperator runId stage) => w.resumeOperator t runId stage
    | some (.pauseOperator runId stage) => w.pauseOperator t runId stage
  | .commit t =>
    match w.txns t with
    | some txn => if txn.finished then some (w.commit t txn) else none
    | none => none
  | .rollback t => some (w.rollback t)
  | .change jobId change => w.change jobId fun entry => change.apply w.now entry
  | .setPhase runId status phase batch =>
    match w.runs.held runId, w.runs.rows runId with
    | none, some run =>
      if run.status.isActive && status.isActive && (w.shared runId).isEmpty then
        some { w with
          runs := { w.runs with
            rows := update w.runs.rows runId
              (some { run with status, phase, batch }) } }
      else none
    | _, _ => none
  | .finish runId status =>
    match w.runs.held runId, w.runs.rows runId with
    | none, some run =>
      if status.discardsSignals && (w.shared runId).isEmpty &&
          w.jobIds.all fun jobId => !(w.jobs.rows jobId).any (liveJob runId) ||
            (w.jobs.held jobId).isNone then
        some ({ w with
          runs := { w.runs with
            rows := update w.runs.rows runId
              (some { run with status }) } }.cancelJobs runId)
      else none
    | _, _ => none

end Catamorphic.Execution.Parking
