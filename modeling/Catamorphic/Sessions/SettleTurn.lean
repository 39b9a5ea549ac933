import Catamorphic.Sessions.Log

/-!
# How a turn ends

The transactions that a turn ends with: it settles, and may be queued again for a failure that
passes, or its attempt is lost. What the attempt left open is closed with it, input that nobody
read goes on in turns of its own, the turn's commands are dropped and its lease is let go of.
A transaction is given the rows that its queries find, in the order that they find them.
-/

namespace Catamorphic.Sessions.Settling

open Protocol Rows Log Table

/-! ## The tables -/

/-- `INPUT_ITEM_KINDS` -/
def isInputKind : ItemKind → Bool
  | .userMessage | .inboundMessage | .taskNotification => true
  | _ => false

/-- The attempt is preparing or running. -/
def stillRuns : AttemptStatus → Bool
  | .preparing | .running => true
  | _ => false

inductive CommandStatus
  | pending
  | sent
  | acknowledged
  | dropped
  deriving DecidableEq

def CommandStatus.isOpen : CommandStatus → Bool
  | .pending | .sent => true
  | _ => false

/-- A row of `agent_turn_commands`. -/
structure TurnCommand where
  id : Id
  turnId : Id
  status : CommandStatus
  deriving DecidableEq

/-- What an attempt's row keeps about its runner. -/
structure RunnerState where
  /-- Steered inputs the harness took in. -/
  consumed : List Id
  /-- The harness began the turn. -/
  started : Bool

structure Store where
  log : Db
  /-- `agent_turn_attempts.runner`, by the attempt. -/
  runners : Id → Option RunnerState
  commands : List TurnCommand

/-! ## The queue -/

/-- `owns`, at an instant. -/
def owns (db : Db) (turnId : Id) (leaseToken : Nat) (clock : Date) : Bool :=
  (db.turns turnId).any fun row =>
    row.leaseToken = some leaseToken && row.leaseExpiresAt.any fun at' => clock < at'

def openCommands (commands : List TurnCommand) (turnId : Id) : List TurnCommand :=
  commands.filter fun command => command.turnId = turnId && command.status.isOpen

def markCommands (commands : List TurnCommand) (ids : List Id) (status : CommandStatus) :
    List TurnCommand :=
  commands.map fun command =>
    if ids.contains command.id && command.status.isOpen then { command with status } else command

/-- `update agent_turns set … where id = …` -/
def setTurn (db : Db) (turnId : Id) (set : TurnRow → TurnRow) : Db :=
  { db with turns := Function.update db.turns turnId ((db.turns turnId).map set) }

def scheduleRetry (db : Db) (turnId : Id) (at' : Date) : Db :=
  setTurn db turnId fun row => { row with availableAt := at' }

def release (db : Db) (turnId : Id) : Db :=
  setTurn db turnId fun row =>
    { row with leaseOwner := none, leaseToken := none, leaseExpiresAt := none }

/-! ## What was left open -/

/-- The item is that of a request among these. -/
def isRequestOf (requestIds : List Id) (item : Item) : Bool :=
  match item.body with
  | .request requestId => requestIds.contains requestId
  | _ => false

/-- The questions that outlive their turn: their answers become messages. -/
def outliving (requests : List RequestRow) : List Id :=
  ((requests.map requestFromRow).filter fun request =>
    !request.blocking && request.kind = .question).map RuntimeRequest.id

def cancelled (item : Item) (now : Stamp) : Item :=
  { item with status := .cancelled, endedAt := some now, updatedAt := now }

def expired (request : RuntimeRequest) (reason : String) (now : Stamp) : RuntimeRequest :=
  { request with
    status := .expired
    answerable := false
    reason := some reason
    resolvedAt := some now }

/-- From the turn's pending requests and its items in progress, its input apart. -/
def closeOpenWork (requests : List RequestRow) (items : List ItemRow) (reason : String)
    (now : Stamp) : List SessionEvent :=
  let outliving := outliving requests
  (items.filterMap fun row =>
    if isRequestOf outliving (itemFromRow row).item then none
    else some (.itemChanged (cancelled (itemFromRow row).item now))) ++
  requests.filterMap fun row =>
    if outliving.contains row.requestId then none
    else some (.requestChanged (expired (requestFromRow row) reason now))

/-- What the two queries find of a turn, in some order. -/
structure OpenWork (db : Db) (turn : Turn) where
  requests : List RequestRow
  items : List ItemRow
  mem_requests : ∀ row, row ∈ requests ↔
    (∃ id, db.requests turn.sessionId id = some row) ∧ row.turnId = some turn.id ∧
      row.status = .pending
  mem_items : ∀ row, row ∈ items ↔
    (∃ id, db.items id = some row) ∧ row.turnId = some turn.id ∧ row.status = .inProgress ∧
      isInputKind row.kind = false

/-! ## Input that nobody read -/

/-- `{ ...item, dispatch: "queue" }` of an input. -/
def queued : ItemBody → ItemBody
  | .userMessage delivery author text rest =>
    .userMessage { delivery with dispatch := .queue } author text rest
  | .inboundMessage delivery sender text rest =>
    .inboundMessage { delivery with dispatch := .queue } sender text rest
  | .taskNotification delivery taskType summary rest =>
    .taskNotification { delivery with dispatch := .queue } taskType summary rest
  | body => body

/-- An item as the input of a turn of its own, or as one more of a turn that waits. -/
def asInput (item : Item) (turnId : Id) (now : Stamp) : Item :=
  if isInputKind item.body.kind then
    { item with turnId := some turnId, body := queued item.body, status := .completed,
                updatedAt := now }
  else { item with turnId := some turnId, updatedAt := now }

/-- A turn queued after all others. -/
def queuedTurn (turn : Turn) (id : Id) (ordinal : Nat) (itemId : Id) (continuationOf : Option Id)
    (providerThreadId : Option Id) (now : Stamp) : Turn where
  id := id
  sessionId := turn.sessionId
  ordinal := ordinal
  status := .queued
  inputItemId := some itemId
  dispatch := .queue
  priority := 0
  activity := none
  activityAt := none
  providerRetry := none
  attemptCount := 0
  activeAttemptId := none
  providerThreadId := providerThreadId
  retryAt := none
  cancellationRequested := false
  error := none
  outcome := none
  checkpoint := ⟨none, none⟩
  continuationOf := continuationOf
  createdAt := now
  startedAt := none
  completedAt := none
  updatedAt := now

/-- What the queries find of the turn's unread input. -/
structure Unread (db : Db) (turn : Turn) where
  /-- In the order of their positions. -/
  steered : List ItemRow
  attempts : List AttemptRow
  lastOrdinal : Option Nat
  /-- The first turn that waits for notifications, with its input. -/
  waiting : Option (TurnRow × ItemRow)
  mem_steered : ∀ row, row ∈ steered ↔
    (∃ id, db.items id = some row) ∧ row.turnId = some turn.id ∧ isInputKind row.kind = true ∧
      turn.inputItemId ≠ some row.id
  mem_attempts : ∀ row, row ∈ attempts ↔
    (∃ id, db.attempts id = some row) ∧ row.turnId = turn.id
  last : ∀ ordinal, lastOrdinal = some ordinal →
    (∃ id row, db.turns id = some row ∧ row.sessionId = turn.sessionId ∧ row.ordinal = ordinal) ∧
      ∀ id row, db.turns id = some row → row.sessionId = turn.sessionId → row.ordinal ≤ ordinal
  none_last : lastOrdinal = none → ∀ id row, db.turns id = some row → row.sessionId ≠ turn.sessionId
  mem_waiting : ∀ row input, waiting = some (row, input) →
    (∃ id, db.turns id = some row) ∧ row.sessionId = turn.sessionId ∧ row.status = .queued ∧
      row.attemptCount = 0 ∧ (∃ id, db.items id = some input ∧ row.inputItemId = some id) ∧
      input.kind = .taskNotification

section

-- `authoredByOwner` of the host, and the id `derivedId(turnId, "steer:" + itemId)`.
variable (ownersOf : Item → Bool) (steeredTurnId : Id → Id → Id)

/-- Where the loop over the unread input stands. -/
structure Requeue where
  ordinal : Nat
  /-- The turn that takes in notifications, and whether they are the owner's. -/
  notifications : Option (Id × Bool)
  events : List SessionEvent

def Requeue.next (turn : Turn) (now : Stamp) (requeue : Requeue) (item : Item) : Requeue :=
  match requeue.notifications with
  | some (id, owned) =>
    if item.body.kind = .taskNotification && owned = ownersOf item then
      { requeue with events := requeue.events ++ [.itemChanged (asInput item id now)] }
    else alone requeue item
  | none => alone requeue item
where
  alone (requeue : Requeue) (item : Item) : Requeue :=
    let ordinal := requeue.ordinal + 1
    let id := steeredTurnId turn.id item.id
    { ordinal := ordinal
      notifications :=
        if item.body.kind = .taskNotification then some (id, ownersOf item)
        else requeue.notifications
      events := requeue.events ++
        [.turnChanged (queuedTurn turn id ordinal item.id none turn.providerThreadId now),
          .itemChanged (asInput item id now)] }

def requeueSteers (runners : Id → Option RunnerState) {db : Db} (turn : Turn)
    (unread : Unread db turn) (now : Stamp) : List SessionEvent :=
  let consumed := unread.attempts.flatMap fun row => ((runners row.id).map (·.consumed)).getD []
  let pending := unread.steered.filter fun row => !consumed.contains row.id
  let notifications := unread.waiting.bind fun (row, input) =>
    if isInputKind input.payload.item.body.kind then some (row.id, ownersOf input.payload.item)
    else none
  (pending.foldl (fun requeue row =>
    Requeue.next ownersOf steeredTurnId turn now requeue (itemFromRow row).item)
    ⟨unread.lastOrdinal.getD turn.ordinal, notifications, []⟩).events

end

/-! ## Settling -/

inductive ErrorKind
  | rateLimit
  | unavailable
  | other
  deriving DecidableEq

structure TurnError where
  json : Json
  kind : ErrorKind
  retrySafe : Bool

structure TurnOutcome where
  json : Json
  /-- It has a `notification`. -/
  notification : Bool

/-- How a turn's work ended. -/
inductive EndStatus
  | completed
  | failed
  | interrupted
  deriving DecidableEq

def EndStatus.turn : EndStatus → TurnStatus
  | .completed => .completed
  | .failed => .failed
  | .interrupted => .interrupted

def EndStatus.attempt : EndStatus → AttemptStatus
  | .completed => .completed
  | .failed => .failed
  | .interrupted => .interrupted

def BACKOFF_MS : List Nat := [5000, 15000, 30000, 60000, 120000]
def MAX_TRANSIENT_RETRIES : Nat := 5

structure SettleInput where
  turn : Turn
  attempt : Attempt
  /-- `session.attention_revision` -/
  attentionRevision : Nat
  status : EndStatus
  error : Option TurnError
  outcome : TurnOutcome
  checkpointAfter : Option Commit
  /-- The lease that the turn was claimed with. -/
  leaseToken : Nat
  /-- The clock when it begins to settle, when its transaction begins and when that appends. -/
  clock : Date
  began : Date
  stamped : Date
  /-- `Math.floor(Math.random() * delay * 0.2)` -/
  jitter : Nat

/-- The failure passes, and may be tried again. -/
def SettleInput.transient (input : SettleInput) : Bool :=
  input.status = .failed && input.error.any (fun error =>
    error.retrySafe && (error.kind = .rateLimit || error.kind = .unavailable)) &&
      input.turn.attemptCount < MAX_TRANSIENT_RETRIES

def SettleInput.retryAt (input : SettleInput) : Date :=
  let delay :=
    if input.turn.attemptCount = 0 then 60000
    else (BACKOFF_MS[min (input.turn.attemptCount - 1) (BACKOFF_MS.length - 1)]?).getD 60000
  input.clock + delay + input.jitter

/-- The turn as it is written. -/
def SettleInput.settled (input : SettleInput) (transient : Bool) : Turn :=
  let now := toISOString input.clock
  { input.turn with
    status := if transient then .queued
      else if input.transient then .interrupted else input.status.turn
    activity := none
    activityAt := none
    providerRetry := none
    cancellationRequested := false
    error := if input.status = .completed then none else input.error.map TurnError.json
    outcome := some input.outcome.json
    checkpoint :=
      { input.turn.checkpoint with
        after := input.checkpointAfter.or input.turn.checkpoint.after }
    retryAt := if transient then some (toISOString input.retryAt) else none
    completedAt := if transient then none else some now
    updatedAt := now }

def SettleInput.endedAttempt (input : SettleInput) : Attempt :=
  { input.attempt with
    status := input.status.attempt
    completedAt := some (toISOString input.clock)
    error := input.error.map TurnError.json }

/-- The attempt ends with its turn, where it is handed over as one that still runs. -/
def SettleInput.attemptEvents (input : SettleInput) : List SessionEvent :=
  if stillRuns input.attempt.status then [.attemptChanged input.endedAttempt] else []

/-- The thread took the turn in. -/
def threadEvents (thread : Option ProviderThreadRow) (turn : Turn) (now : Stamp) :
    List SessionEvent :=
  (thread.map fun row => .providerThreadChanged
    { providerThreadFromRow row with
      lastTurnOrdinal := some turn.ordinal
      updatedAt := now }).toList

/-- `Partial<SessionFields>` with the attention revision alone. -/
def attention (revision : Nat) : PartialFields where
  id := none
  projectId := none
  title := none
  icon := none
  agentId := none
  harness := none
  model := none
  modelEffort := none
  status := none
  workStatus := none
  activity := none
  todos := none
  metadata := none
  imported := none
  parentSessionId := none
  forkedFromSessionId := none
  attentionRevision := some revision
  environment := none
  authorityHostId := none
  authorityRevision := none
  handoffStatus := none
  updatedAt := none

section

variable (ownersOf : Item → Bool) (steeredTurnId : Id → Id → Id)

/-- The thread of an attempt that its harness began, or that completed. -/
def seenThread (store : Store) (input : SettleInput) (attempts : List AttemptRow) :
    Option ProviderThreadRow :=
  input.attempt.providerThreadId.bind fun thread =>
    if input.status = .completed || attempts.any (fun row =>
        row.providerThreadId = some thread &&
          (store.runners row.id).any fun runner => runner.started) then
      store.log.providerThreads thread
    else none

def settleEvents (store : Store) (input : SettleInput) (transient : Bool)
    (work : OpenWork store.log input.turn) (unread : Unread store.log input.turn) :
    List SessionEvent :=
  let now := toISOString input.clock
  input.attemptEvents ++
  closeOpenWork work.requests work.items "The turn ended before it was answered." now ++
  [.turnChanged (input.settled transient)] ++
  (if transient then []
    else requeueSteers ownersOf steeredTurnId store.runners input.turn unread now) ++
  threadEvents (seenThread store input unread.attempts) input.turn now ++
  if (input.status = .failed && !transient) || input.outcome.notification then
    [.sessionChanged (attention (input.attentionRevision + 1))]
  else []

/-- `settle`, where its transaction commits. -/
def settle (store : Store) (input : SettleInput) (work : OpenWork store.log input.turn)
    (unread : Unread store.log input.turn) : Option Store :=
  if owns store.log input.turn.id input.leaseToken input.began then
    -- A person's stop stands: a turn they stopped is not tried again.
    let stopped := (store.log.turns input.turn.id).any fun row => row.cancellationRequestedAt.isSome
    let transient := input.transient && !stopped
    (append store.log
      { sessionId := input.turn.sessionId
        events := settleEvents ownersOf steeredTurnId store input transient work unread
        commandId := none
        now := input.began
        clock := input.stamped }).map fun log =>
      { store with
        log := release
          (if input.transient then scheduleRetry log input.turn.id input.retryAt else log)
          input.turn.id
        commands := markCommands store.commands
          ((openCommands store.commands input.turn.id).map TurnCommand.id) .dropped }
  else none

/-! ## Losing an attempt -/

structure LoseInput where
  turnId : Id
  attempt : Attempt
  reason : String
  /-- `harness.recovery === "continue"` -/
  recovers : Bool
  /-- `session.status === "active"` -/
  active : Bool
  leaseToken : Nat
  clock : Date
  began : Date
  stamped : Date

/-- What the queries find of later turns. -/
structure Later (db : Db) (turn : Turn) where
  newer : Bool
  continued : Bool
  newer_iff : newer = true ↔ ∃ id row, db.turns id = some row ∧ row.sessionId = turn.sessionId ∧
    turn.ordinal < row.ordinal
  continued_iff : continued = true ↔
    ∃ id row, db.turns id = some row ∧ row.continuationOf = some turn.id

-- `{ message }`, a native ref of strength `strong`, and the ids derived from the turn's.
variable (message : String → Json) (strong : Json → Bool) (noticeId continuationId : Id → Id)

/-- The notice that a continuation starts from. -/
def continuedNotice (turn : Turn) (now : Stamp) : Item where
  id := noticeId turn.id
  sessionId := turn.sessionId
  turnId := some (continuationId turn.id)
  attemptId := none
  parentItemId := none
  position := 0
  status := .completed
  nativeRef := none
  createdAt := now
  updatedAt := now
  startedAt := some now
  endedAt := some now
  body := .notice "turn_continued"
    "The machine running the last turn stopped. The agent continues where it left off."
    ⟨toString turn.id⟩

def lostTurn (turn : Turn) (reason : String) (now : Stamp) : Turn :=
  { turn with
    status := .interrupted
    activity := none
    activityAt := none
    providerRetry := none
    cancellationRequested := false
    error := some (message reason)
    completedAt := some now
    updatedAt := now }

def loseEvents (store : Store) (input : LoseInput) (turn : Turn) (work : OpenWork store.log turn)
    (unread : Unread store.log turn) (later : Later store.log turn) : List SessionEvent :=
  let now := toISOString input.clock
  let requeued := requeueSteers ownersOf steeredTurnId store.runners turn unread now
  let thread := input.attempt.providerThreadId.bind store.log.providerThreads
  [.attemptChanged
    { input.attempt with
      status := .lost
      completedAt := some now
      error := some (message input.reason) }] ++
  closeOpenWork work.requests work.items "The agent that asked stopped before it was answered."
    now ++
  [.turnChanged (lostTurn message turn input.reason now)] ++
  requeued ++
  threadEvents thread turn now ++
  if input.recovers && (thread.bind fun row => row.nativeRef).any strong && !later.newer &&
      requeued.isEmpty && !later.continued && !turn.cancellationRequested && input.active then
    [.itemAdded (continuedNotice noticeId continuationId turn now),
      .turnChanged (queuedTurn turn (continuationId turn.id) (turn.ordinal + 1) (noticeId turn.id)
        (some turn.id) input.attempt.providerThreadId now)]
  else []

/-- The transaction of `lose`, where it commits; the turn's row is read under the lock. -/
def lose (store : Store) (input : LoseInput) (row : TurnRow)
    (work : OpenWork store.log (turnFromRow input.began row))
    (unread : Unread store.log (turnFromRow input.began row))
    (later : Later store.log (turnFromRow input.began row)) : Option Store :=
  let turn := turnFromRow input.began row
  if owns store.log input.turnId input.leaseToken input.began then
    (append store.log
      { sessionId := turn.sessionId
        events := loseEvents ownersOf steeredTurnId message strong noticeId continuationId store
          input turn work unread later
        commandId := some ("continue:" ++ toString turn.id)
        now := input.began
        clock := input.stamped }).map fun log =>
      { store with
        log := release log turn.id
        commands := markCommands store.commands
          ((openCommands store.commands turn.id).map TurnCommand.id) .dropped }
  else none

end

end Catamorphic.Sessions.Settling
