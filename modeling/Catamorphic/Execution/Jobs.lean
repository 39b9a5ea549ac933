import Catamorphic.Lib.Runs
import Mathlib.Algebra.GroupWithZero.Nat

/-!
# Execution jobs

Durable work waits in a table of jobs. A worker claims jobs under a lease: a token and a
generation, until an expiry that heartbeats move on. What a worker then does to a job is one
update of its row on condition that the lease still stands, and a sweep takes back the jobs
whose lease ran out. Rows change one statement at a time; the clock is the database's, in
milliseconds.
-/

namespace Catamorphic.Execution.Jobs

open Runs

inductive Kind
  | durableBoundary
  | durablePauseTimeout
  | batchSource
  | batchItem
  | batchStep
  | batchSink
  deriving DecidableEq

inductive Status
  | pending
  | running
  | completed
  | failed
  | canceled
  deriving DecidableEq

def Status.isTerminal : Status → Bool
  | .completed | .failed | .canceled => true
  | .pending | .running => false

/-- A row of `execution_jobs`. -/
structure Job where
  id : String
  tenantId : String
  workflowRunId : String
  workflowStepAttemptId : Option String
  kind : Kind
  payload : String
  status : Status
  priority : Int
  availableAt : Nat
  attempt : Int
  maxAttempts : Int
  leasedBy : Option String
  leaseToken : Option String
  leaseGeneration : Nat
  heartbeatAt : Option Nat
  leaseExpiresAt : Option Nat
  dedupeKey : Option String
  lastError : Option String
  leaseExpiries : Nat
  completedAt : Option Nat
  exhaustionHandledAt : Option Nat
  exhaustionHandled : Bool
  deriving DecidableEq

def maxLeaseExpiries : Nat := 20

/-- `EXHAUSTION_CLAIM_MS` -/
def exhaustionClaimMs : Nat := 10 * 60 * 1000

/-- What a worker shows for a job it was given. -/
structure Lease where
  workerId : String
  leaseToken : String
  leaseGeneration : Nat
  deriving DecidableEq

/-- The row stands under this lease, which has not run out. -/
def Job.heldBy (job : Job) (now : Nat) (lease : Lease) : Bool :=
  job.status = .running && job.leasedBy = some lease.workerId &&
    job.leaseToken = some lease.leaseToken && job.leaseGeneration = lease.leaseGeneration &&
    job.leaseExpiresAt.any (now < ·)

/-- The lease columns as every way out of a lease leaves them. -/
def Job.unleased (job : Job) : Job :=
  { job with leasedBy := none, leaseToken := none, heartbeatAt := none, leaseExpiresAt := none }

/-! ## What was given to whom -/

/-- A claim of a job: the lease, how far it has been extended, and whether it was given up. -/
structure Grant where
  lease : Lease
  expires : Nat
  ended : Bool := false
  deriving DecidableEq

def Grant.unexpired (grant : Grant) (now : Nat) : Prop := grant.ended = false ∧ now < grant.expires

instance (grant : Grant) (now : Nat) : Decidable (grant.unexpired now) :=
  inferInstanceAs (Decidable (_ ∧ _))

/-- A job with what has happened to it. -/
structure Entry where
  job : Job
  /-- Every claim of the job, in order. -/
  grants : List Grant
  /-- How often the code failed since the job was enqueued, revived or redriven. -/
  failures : Nat
  /-- How often its lease ran out since then. -/
  lapses : Nat
  deriving DecidableEq

/-- The grant the row stands under is changed. -/
def Entry.changeGrant (entry : Entry) (change : Grant → Grant) : List Grant :=
  entry.grants.map fun grant =>
    if grant.lease.leaseGeneration = entry.job.leaseGeneration then change grant else grant

/-- The lease the row stands under, if it does, is given up. -/
def Entry.endGrant (entry : Entry) : List Grant :=
  entry.changeGrant fun grant => { grant with ended := true }

/-! ## One row -/

/-- What a job is enqueued with. -/
structure NewJob where
  tenantId : String
  workflowRunId : String
  workflowStepAttemptId : Option String
  kind : Kind
  payload : String
  priority : Option Int
  availableAt : Option Nat
  maxAttempts : Option Int
  dedupeKey : Option String
  deriving DecidableEq

def NewJob.row (new : NewJob) (id : String) (now : Nat) : Job where
  id := id
  tenantId := new.tenantId
  workflowRunId := new.workflowRunId
  workflowStepAttemptId := new.workflowStepAttemptId
  kind := new.kind
  payload := new.payload
  status := .pending
  priority := new.priority.getD 0
  availableAt := new.availableAt.getD now
  attempt := 0
  maxAttempts := new.maxAttempts.getD 5
  leasedBy := none
  leaseToken := none
  leaseGeneration := 0
  heartbeatAt := none
  leaseExpiresAt := none
  dedupeKey := new.dedupeKey
  lastError := none
  leaseExpiries := 0
  completedAt := none
  exhaustionHandledAt := none
  exhaustionHandled := false

/-- A live row absorbs the duplicate; a terminal one is revived. -/
def Entry.reviveTerminalJob (entry : Entry) (new : NewJob) (now : Nat) : Entry :=
  if entry.job.status.isTerminal then
    { entry with
      job := { entry.job with
        status := .pending
        attempt := 0
        leaseExpiries := 0
        availableAt := new.availableAt.getD now
        payload := new.payload
        completedAt := none
        lastError := none
        exhaustionHandledAt := none
        exhaustionHandled := false }
      failures := 0
      lapses := 0 }
  else entry

/-- The claim of one row. -/
def Entry.claim (entry : Entry) (now : Nat) (workerId leaseToken : String) (leaseSeconds : Nat) :
    Entry :=
  if entry.job.status = .pending then
    let generation := entry.job.leaseGeneration + 1
    { entry with
      job := { entry.job with
        status := .running
        leasedBy := some workerId
        leaseToken := some leaseToken
        leaseGeneration := generation
        heartbeatAt := some now
        leaseExpiresAt := some (now + leaseSeconds * 1000)
        attempt := entry.job.attempt + 1 }
      grants := entry.grants ++ [⟨⟨workerId, leaseToken, generation⟩, now + leaseSeconds * 1000,
        false⟩] }
  else entry

def Entry.heartbeat (entry : Entry) (now : Nat) (lease : Lease) (leaseSeconds : Nat) : Entry :=
  if entry.job.heldBy now lease then
    { entry with
      job := { entry.job with
        leaseExpiresAt := some (now + leaseSeconds * 1000)
        heartbeatAt := some now }
      grants := entry.changeGrant fun grant => { grant with expires := now + leaseSeconds * 1000 } }
  else entry

def Entry.complete (entry : Entry) (now : Nat) (lease : Lease) : Entry :=
  if entry.job.heldBy now lease then
    { entry with
      job := { entry.job.unleased with status := .completed, completedAt := some now }
      grants := entry.endGrant }
  else entry

/-- `Math.min(300, 2 ** Math.min(attempt, 8))` seconds from the host's now. -/
def retryDate (hostNow : Nat) (attempt : Int) : Nat :=
  hostNow + min 300 (2 ^ min attempt.toNat 8) * 1000

def Entry.fail (entry : Entry) (now hostNow : Nat) (lease : Lease) (error : String)
    (retryAt : Option Nat) : Entry :=
  if entry.job.heldBy now lease then
    let retry := entry.job.attempt < entry.job.maxAttempts
    { entry with
      job := { entry.job.unleased with
        status := if retry then .pending else .failed
        availableAt := if retry then retryAt.getD (retryDate hostNow entry.job.attempt) else hostNow
        lastError := some error
        completedAt := if retry then none else some hostNow }
      grants := entry.endGrant
      failures := entry.failures + 1 }
  else entry

/-- `immediate`: what the job was parked for has arrived. -/
def Entry.release (entry : Entry) (now : Nat) (lease : Lease) (availableAt : Nat)
    (immediate : Bool) : Entry :=
  if entry.job.heldBy now lease then
    { entry with
      job := { entry.job.unleased with
        status := .pending
        availableAt := if immediate then now else availableAt
        attempt := entry.job.attempt - 1 }
      grants := entry.endGrant }
  else entry

def Entry.cancel (entry : Entry) (now : Nat) : Entry :=
  if entry.job.status.isTerminal then entry
  else
    { entry with
      job := { entry.job.unleased with status := .canceled, completedAt := some now }
      grants := if entry.job.status = .running then entry.endGrant else entry.grants }

/-- A pending job becomes due at `availableAt`, sooner than it was. -/
def Entry.makeAvailable (entry : Entry) (availableAt : Nat) : Entry :=
  if entry.job.status = .pending ∧ availableAt < entry.job.availableAt then
    { entry with job := { entry.job with availableAt } }
  else entry

/-- The same, also later than it was. -/
def Entry.makeJobAvailable (entry : Entry) (availableAt : Nat) : Entry :=
  if entry.job.status = .pending then { entry with job := { entry.job with availableAt } }
  else entry

def Entry.redrive (entry : Entry) (availableAt : Nat) : Entry :=
  if entry.job.status = .failed then
    { entry with
      job := { entry.job.unleased with
        status := .pending
        attempt := 0
        leaseExpiries := 0
        availableAt
        lastError := none
        completedAt := none
        exhaustionHandledAt := none
        exhaustionHandled := false }
      failures := 0
      lapses := 0 }
  else entry

def retryError : String := "Execution job lease expired before completion"
def exhaustedError : String := "Execution job lease expired 20 times without completing"

/-- A lease that ran out: the attempt its claim consumed is given back, up to the limit. -/
def Entry.requeueExpired (entry : Entry) (now : Nat) : Entry :=
  if entry.job.status = .running ∧ entry.job.leaseExpiresAt.any (· ≤ now) then
    let expiries := entry.job.leaseExpiries + 1
    if expiries < maxLeaseExpiries then
      { entry with
        job := { entry.job.unleased with
          status := .pending
          availableAt := now
          attempt := max (entry.job.attempt - 1) 0
          leaseExpiries := expiries
          lastError := some retryError }
        lapses := entry.lapses + 1 }
    else
      { entry with
        job := { entry.job.unleased with
          status := .failed
          leaseExpiries := expiries
          lastError := some exhaustedError
          completedAt := some now }
        lapses := entry.lapses + 1 }
  else entry

/-- An exhausted job whose handler has to run: unclaimed, or claimed too long ago. -/
def Job.exhaustionDue (job : Job) (now : Nat) : Bool :=
  job.status = .failed && !job.exhaustionHandled &&
    job.exhaustionHandledAt.all (· + exhaustionClaimMs < now)

def Entry.claimExhaustion (entry : Entry) (now : Nat) : Entry :=
  if entry.job.exhaustionDue now then
    { entry with job := { entry.job with exhaustionHandledAt := some now } }
  else entry

def Entry.confirmExhaustionHandled (entry : Entry) : Entry :=
  { entry with job := { entry.job with exhaustionHandled := true } }

def Entry.releaseExhaustionClaim (entry : Entry) : Entry :=
  if entry.job.status = .failed then
    { entry with job := { entry.job with exhaustionHandledAt := none } }
  else entry

/-! ## The table -/

structure World where
  now : Nat
  jobs : List Entry
  deriving DecidableEq

def empty (now : Nat) : World := ⟨now, []⟩

/-- One update of the rows that a condition picks. -/
def World.updateWhere (w : World) (picks : Job → Bool) (change : Entry → Entry) : World :=
  { w with jobs := w.jobs.map fun entry => if picks entry.job then change entry else entry }

def World.update (w : World) (jobId : String) (change : Entry → Entry) : World :=
  w.updateWhere (fun job => job.id = jobId) change

def sameKey (new : NewJob) (job : Job) : Bool :=
  new.dedupeKey.isSome && job.tenantId = new.tenantId && job.dedupeKey = new.dedupeKey

/-- One insert, at a fresh id where no row has the key. -/
def World.enqueue (w : World) (id : String) (new : NewJob) : World :=
  if w.jobs.any fun entry => sameKey new entry.job then
    w.updateWhere (sameKey new) fun entry => entry.reviveTerminalJob new w.now
  else { w with jobs := w.jobs ++ [⟨new.row id w.now, [], 0, 0⟩] }

/-- The tenant and the key of a job that has a key. -/
def NewJob.key (new : NewJob) : Option (String × String) := new.dedupeKey.map (new.tenantId, ·)

/-- The text that jobs of one call are collapsed by; the empty key counts as none. -/
def NewJob.collapseKey (new : NewJob) : Option String :=
  (new.dedupeKey.filter (· ≠ "")).map (new.tenantId ++ " " ++ ·)

/-- Of the jobs with one such text only the last is enqueued. -/
def collapse : List (String × NewJob) → List (String × NewJob)
  | [] => []
  | job :: jobs =>
    if job.2.collapseKey.isSome && jobs.any (·.2.collapseKey = job.2.collapseKey) then
      collapse jobs
    else job :: collapse jobs

/-- Two of the jobs have the same key. -/
def clashing : List (String × NewJob) → Bool
  | [] => false
  | job :: jobs => (job.2.key.isSome && jobs.any (·.2.key = job.2.key)) || clashing jobs

/-- `enqueueMany`: one insert, which fails where it would touch a row twice. -/
def World.enqueueMany (w : World) (jobs : List (String × NewJob)) : Option World :=
  if clashing (collapse jobs) then none
  else some ((collapse jobs).foldl (fun w job => w.enqueue job.1 job.2) w)

def isDue (job : Job) (now : Nat) : Bool := job.status = .pending && decide (job.availableAt ≤ now)

/-- What happens to the table. `placed` is what other tables say of a run's placement. -/
inductive Event
  | tick (now : Nat)
  | enqueue (id : String) (new : NewJob)
  | enqueueMany (jobs : List (String × NewJob))
  /-- The jobs a claim picked, by rank, policy and placement. -/
  | claim (jobIds : List String) (workerId leaseToken : String) (leaseSeconds : Nat)
  | claimById (jobId : String) (placed : Bool) (workerId leaseToken : String) (leaseSeconds : Nat)
  | heartbeat (jobId : String) (placed : Bool) (lease : Lease) (leaseSeconds : Nat)
  | complete (jobId : String) (lease : Lease)
  | fail (jobId : String) (hostNow : Nat) (lease : Lease) (error : String) (retryAt : Option Nat)
  | release (jobId : String) (lease : Lease) (availableAt : Nat) (immediate : Bool)
  | cancel (jobId : String)
  | cancelByDedupeKey (tenantId dedupeKey : String)
  | cancelByDedupePrefix (tenantId dedupePrefix : String)
  /-- The end of a run, or of one of its steps, by its coordinator. -/
  | cancelRun (runIds : List String) (stepAttemptId excludeJobId : Option String)
  | makeAvailable (tenantId dedupeKey : String) (availableAt : Option Nat)
  | makeRunAvailable (runId : String) (availableAt : Option Nat)
  | makeJobsAvailable (jobIds : List String) (availableAt : Option Nat)
  | redrive (tenantId jobId : String) (availableAt : Option Nat)
  /-- The expired jobs a sweep picked. -/
  | requeueExpired (jobIds : List String)
  | claimExhausted (jobIds : List String)
  | claimExhaustionFor (jobId : String)
  | confirmExhaustionHandled (jobId : String)
  | releaseExhaustionClaim (jobId : String)

def step (w : World) : Event → Option World
  | .tick now => if w.now ≤ now then some { w with now } else none
  | .enqueue id new =>
    if w.jobs.any fun entry => entry.job.id = id then none else some (w.enqueue id new)
  | .enqueueMany jobs =>
    if jobs.any fun job => w.jobs.any fun entry => entry.job.id = job.1 then none
    else w.enqueueMany jobs
  | .claim jobIds workerId leaseToken leaseSeconds =>
    some (w.updateWhere (fun job => job.id ∈ jobIds && isDue job w.now) fun entry =>
      entry.claim w.now workerId leaseToken leaseSeconds)
  | .claimById jobId placed workerId leaseToken leaseSeconds =>
    some (w.updateWhere (fun job => job.id = jobId && placed && isDue job w.now) fun entry =>
      entry.claim w.now workerId leaseToken leaseSeconds)
  | .heartbeat jobId placed lease leaseSeconds =>
    some (w.updateWhere (fun job => job.id = jobId && placed) fun entry =>
      entry.heartbeat w.now lease leaseSeconds)
  | .complete jobId lease => some (w.update jobId fun entry => entry.complete w.now lease)
  | .fail jobId hostNow lease error retryAt =>
    some (w.update jobId fun entry => entry.fail w.now hostNow lease error retryAt)
  | .release jobId lease availableAt immediate =>
    some (w.update jobId fun entry => entry.release w.now lease availableAt immediate)
  | .cancel jobId => some (w.update jobId fun entry => entry.cancel w.now)
  | .cancelByDedupeKey tenantId dedupeKey =>
    some (w.updateWhere (fun job => job.tenantId = tenantId && job.dedupeKey = some dedupeKey)
      fun entry => entry.cancel w.now)
  | .cancelByDedupePrefix tenantId dedupePrefix =>
    some (w.updateWhere (fun job => job.tenantId = tenantId && job.dedupeKey.any fun key =>
        dedupePrefix.toList.isPrefixOf key.toList)
      fun entry => entry.cancel w.now)
  | .cancelRun runIds stepAttemptId excludeJobId =>
    some (w.updateWhere (fun job => job.workflowRunId ∈ runIds &&
        (stepAttemptId.isNone || job.workflowStepAttemptId = stepAttemptId) &&
        excludeJobId ≠ some job.id)
      fun entry => entry.cancel w.now)
  | .makeAvailable tenantId dedupeKey availableAt =>
    some (w.updateWhere (fun job => job.tenantId = tenantId && job.dedupeKey = some dedupeKey)
      fun entry => entry.makeAvailable (availableAt.getD w.now))
  | .makeRunAvailable runId availableAt =>
    some (w.updateWhere (fun job => job.workflowRunId = runId)
      fun entry => entry.makeAvailable (availableAt.getD w.now))
  | .makeJobsAvailable jobIds availableAt =>
    some (w.updateWhere (fun job => job.id ∈ jobIds)
      fun entry => entry.makeJobAvailable (availableAt.getD w.now))
  | .redrive tenantId jobId availableAt =>
    some (w.updateWhere (fun job => job.id = jobId && job.tenantId = tenantId)
      fun entry => entry.redrive (availableAt.getD w.now))
  | .requeueExpired jobIds =>
    some (w.updateWhere (fun job => job.id ∈ jobIds) fun entry => entry.requeueExpired w.now)
  | .claimExhausted jobIds =>
    some (w.updateWhere (fun job => job.id ∈ jobIds) fun entry => entry.claimExhaustion w.now)
  | .claimExhaustionFor jobId =>
    some (w.update jobId fun entry => entry.claimExhaustion w.now)
  | .confirmExhaustionHandled jobId =>
    some (w.update jobId Entry.confirmExhaustionHandled)
  | .releaseExhaustionClaim jobId =>
    some (w.update jobId Entry.releaseExhaustionClaim)

end Catamorphic.Execution.Jobs
