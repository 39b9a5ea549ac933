import Catamorphic.Lib.Table
import Catamorphic.Sessions.Rows

/-!
# The session event log

The only writer of a session's projections. A batch of events is appended under the
session row's lock: turn changes are brought up to date with the turns as they stand, the
events get their sequences and the added items their places, and each is stored and
projected in order.
-/

namespace Catamorphic.Sessions.Log

open Protocol Rows Table List Function

/-- The tables of the log, of every session together. -/
structure Db where
  /-- `agent_sessions.event_sequence`, of the sessions there are. -/
  eventSequence : Id → Option Nat
  /-- `agent_session_events`, in the order they were inserted. -/
  events : List StoredSessionEvent
  turns : Id → Option TurnRow
  attempts : Id → Option AttemptRow
  items : Id → Option ItemRow
  /-- By session and request. -/
  requests : Id → Id → Option RequestRow
  providerThreads : Id → Option ProviderThreadRow

def Db.empty : Db where
  eventSequence := fun _ => none
  events := []
  turns := fun _ => none
  attempts := fun _ => none
  items := fun _ => none
  requests := fun _ _ => none
  providerThreads := fun _ => none

/-! ## The projector -/

def turnValues (turn : Turn) : TurnValues where
  status := turn.status
  inputItemId := turn.inputItemId
  dispatch := turn.dispatch
  priority := turn.priority
  activity := turn.activity
  activityAt := dateOf turn.activityAt
  providerRetry := turn.providerRetry
  attemptCount := turn.attemptCount
  activeAttemptId := turn.activeAttemptId
  providerThreadId := turn.providerThreadId
  error := turn.error
  outcome := turn.outcome
  checkpointBefore := turn.checkpoint.before.map character40
  checkpointAfter := turn.checkpoint.after.map character40
  continuationOf := turn.continuationOf
  startedAt := dateOf turn.startedAt
  completedAt := dateOf turn.completedAt
  updatedAt := turn.updatedAt.date

def insertTurn (now : Date) (sessionId : Id) (at' : Stamp) (turn : Turn) : TurnRow where
  toTurnValues := turnValues turn
  id := turn.id
  sessionId := sessionId
  ordinal := turn.ordinal
  createdAt := turn.createdAt.date
  availableAt := (dateOf turn.retryAt).getD now
  cancellationRequestedAt := if turn.cancellationRequested then some at'.date else none
  leaseOwner := none
  leaseToken := none
  leaseExpiresAt := none

def updateTurn (at' : Stamp) (turn : Turn) (row : TurnRow) : TurnRow :=
  { row with
    toTurnValues := turnValues turn
    -- A request to stop stands until the turn leaves its run: a turn written while it
    -- still runs never withdraws one made meanwhile.
    cancellationRequestedAt :=
      if turn.cancellationRequested then some (row.cancellationRequestedAt.getD at'.date)
      else if turn.status.active then row.cancellationRequestedAt
      else none }

def attemptValues (attempt : Attempt) : AttemptValues where
  status := attempt.status
  providerThreadId := attempt.providerThreadId
  nativeTurnRef := attempt.nativeTurnRef
  error := attempt.error
  startedAt := dateOf attempt.startedAt
  completedAt := dateOf attempt.completedAt

def insertAttempt (sessionId : Id) (attempt : Attempt) : AttemptRow where
  toAttemptValues := attemptValues attempt
  id := attempt.id
  turnId := attempt.turnId
  sessionId := sessionId
  ordinal := attempt.ordinal
  reason := attempt.reason
  createdAt := attempt.createdAt.date

/-- The searchable text of an item. -/
def itemText (item : Item) : String :=
  match item.body with
  | .userMessage _ _ text _ | .inboundMessage _ _ text _ | .assistantMessage text _
  | .reasoning text | .notice _ text _ | .contextHandoff text _ => text
  | .taskNotification _ _ summary _ => summary
  | .command command description _ _ => description.getD command
  | .toolCall tool description _ => description.getD tool
  | .fileChange path _ => path
  | .subagent title _ => title
  | .plan steps => "\n".intercalate (steps.map PlanStep.text)
  | .request _ => ""

/-- The delivery an input item carries. -/
def inputOf (item : Item) : Option DeliveryFields :=
  match item.body with
  | .userMessage delivery .. | .inboundMessage delivery .. | .taskNotification delivery .. =>
    some delivery
  | _ => none

/-- Who an item is by. -/
def authorOf (item : Item) : Option Author :=
  match item.body with
  | .userMessage _ author .. => some author
  | .inboundMessage _ sender .. => some sender
  | .assistantMessage _ agentId => some (.agent item.sessionId agentId none)
  | .taskNotification _ taskType .. => some (.system taskType)
  | _ => none

def itemValues (item : Item) : ItemValues where
  turnId := item.turnId
  attemptId := item.attemptId
  parentItemId := item.parentItemId
  kind := item.body.kind
  status := item.status
  text := itemText item
  authorKind := match authorOf item with
    | some author => some author.kind
    | none => if item.body.kind = .notice then some .system else none
  authorPayload := authorOf item
  dispatch := (inputOf item).map DeliveryFields.dispatch
  attention := ((inputOf item).map DeliveryFields.attentionRequired).getD false
  idempotencyKey := (inputOf item).bind DeliveryFields.idempotencyKey
  payload := .ofItem item
  updatedAt := item.updatedAt.date

def insertItem (sessionId : Id) (item : Item) : ItemRow where
  toItemValues := itemValues item
  id := item.id
  sessionId := sessionId
  position := item.position
  createdAt := item.createdAt.date

/-- Positions never change: the stored one wins, and so does its payload copy. -/
def updateItem (item : Item) (row : ItemRow) : ItemRow :=
  { row with
    toItemValues :=
      { itemValues item with payload := .ofItem (item.placedAt row.position) } }

/-- An item with a streamed field changed; `none` where its kind has no such field. -/
def setStreamed (f : String → String) : StreamedField → ItemBody → Option ItemBody
  | .text, .userMessage delivery author text rest =>
    some (.userMessage delivery author (f text) rest)
  | .text, .inboundMessage delivery sender text rest =>
    some (.inboundMessage delivery sender (f text) rest)
  | .text, .assistantMessage text agentId => some (.assistantMessage (f text) agentId)
  | .text, .reasoning text => some (.reasoning (f text))
  | .text, .notice code text data => some (.notice code (f text) data)
  | .text, .contextHandoff text rest => some (.contextHandoff (f text) rest)
  | .output, .command command description output exitCode =>
    some (.command command description (f output) exitCode)
  | _, _ => none

/-- `jsonb_set` of the field to `coalesce(payload->>field, '') || text`, and of `updatedAt`. -/
def appendPayload (field : StreamedField) (text : String) (at' : Stamp) (payload : ItemPayload) :
    ItemPayload :=
  let item := { payload.item with updatedAt := at' }
  match setStreamed (· ++ text) field payload.item.body, field with
  | some body, _ => { payload with item := { item with body := body } }
  | none, .text => { payload with item, strayText := some (payload.strayText.getD "" ++ text) }
  | none, .output =>
    { payload with item, strayOutput := some (payload.strayOutput.getD "" ++ text) }

def appendText (field : StreamedField) (text : String) (at' : Stamp) (row : ItemRow) : ItemRow :=
  { row with
    payload := appendPayload field text at' row.payload
    text := match field with
      | .text => row.text ++ text
      | .output => row.text
    updatedAt := at'.date }

def requestValues (at' : Stamp) (request : RuntimeRequest) : RequestValues where
  turnId := request.turnId
  attemptId := request.attemptId
  itemId := request.itemId
  kind := request.kind
  payload := request
  status := request.status
  answerable := request.answerable
  blocking := request.blocking
  expiresAt := dateOf request.expiresAt
  response := request.response
  resolvedByExternalUserId := request.resolvedBy
  resolvedAt := dateOf request.resolvedAt
  reason := request.reason
  updatedAt := at'.date

def insertRequest (sessionId : Id) (at' : Stamp) (request : RuntimeRequest) : RequestRow where
  toRequestValues := requestValues at' request
  sessionId := sessionId
  requestId := request.id
  createdAt := request.createdAt.date
  revision := 0

def threadValues (thread : ProviderThread) : ThreadValues where
  harness := thread.harness
  nativeRef := thread.nativeRef
  status := thread.status
  lastTurnOrdinal := thread.lastTurnOrdinal
  portable := thread.portable
  updatedAt := thread.updatedAt.date

def insertThread (sessionId : Id) (thread : ProviderThread) : ProviderThreadRow where
  toThreadValues := threadValues thread
  id := thread.id
  sessionId := sessionId
  createdAt := thread.createdAt.date

/-- `project`, in a transaction that began at `now`. -/
def project (now : Date) (db : Db) (stored : StoredSessionEvent) : Db :=
  let sessionId := stored.sessionId
  match stored.event with
  -- `projectSession`: the session's own columns.
  | .sessionChanged _ => db
  | .turnChanged turn =>
    { db with
      turns := upsert db.turns TurnRow.sessionId turn.id sessionId
        (insertTurn now sessionId stored.at' turn) (updateTurn stored.at' turn) }
  | .attemptChanged attempt =>
    { db with
      attempts := upsert db.attempts AttemptRow.sessionId attempt.id sessionId
        (insertAttempt sessionId attempt)
        fun row => { row with toAttemptValues := attemptValues attempt } }
  | .itemAdded item | .itemChanged item =>
    { db with
      items := upsert db.items ItemRow.sessionId item.id sessionId
        (insertItem sessionId item) (updateItem item) }
  | .itemTextAppended itemId field text at' =>
    { db with
      items := change db.items ItemRow.sessionId itemId sessionId (appendText field text at') }
  | .requestChanged request =>
    { db with
      requests := update db.requests sessionId <|
        upsert (db.requests sessionId) (fun _ => sessionId) request.id sessionId
          (insertRequest sessionId stored.at' request)
          fun row =>
            { row with
              toRequestValues := requestValues stored.at' request
              revision := row.revision + 1 } }
  | .providerThreadChanged thread =>
    { db with
      providerThreads := upsert db.providerThreads ProviderThreadRow.sessionId thread.id
        sessionId (insertThread sessionId thread)
        fun row => { row with toThreadValues := threadValues thread } }

/-! ## Appending a batch -/

/--
`currentTurns`: a writer that read a turn before it settled never puts it back to work, and
one that read it before a stop never withdraws it.
-/
def currentTurn (db : Db) (sessionId : Id) : SessionEvent → Option SessionEvent
  | .turnChanged turn =>
    match own db.turns TurnRow.sessionId sessionId turn.id with
    | none => some (.turnChanged turn)
    | some row =>
      if row.status.settled && turn.status.active then none
      else if turn.status.active && !turn.cancellationRequested &&
          row.cancellationRequestedAt.isSome then
        some (.turnChanged { turn with cancellationRequested := true })
      else some (.turnChanged turn)
  | event => some event

def currentTurns (db : Db) (sessionId : Id) (events : List SessionEvent) : List SessionEvent :=
  events.filterMap (currentTurn db sessionId)

/--
An item's position is the sequence of the event that added it; a later change in the same
batch keeps it. `positions` are those of the items the batch added before.
-/
def place (positions : Id → Option Nat) (sequence : Nat) :
    SessionEvent → (Id → Option Nat) × SessionEvent
  | .itemAdded item =>
    (update positions item.id (some sequence), .itemAdded (item.placedAt sequence))
  | .itemChanged item =>
    (positions, .itemChanged (match positions item.id with
      | some position => item.placedAt position
      | none => item))
  | event => (positions, event)

def placeAll (sessionId : Id) (at' : Stamp) (commandId : Option String) :
    (Id → Option Nat) → Nat → List SessionEvent → List StoredSessionEvent
  | _, _, [] => []
  | positions, sequence, event :: events =>
    let placed := place positions sequence event
    ⟨sessionId, sequence, at', commandId, placed.2⟩ ::
      placeAll sessionId at' commandId placed.1 (sequence + 1) events

/-- A batch is numbered on from where it starts. -/
theorem placeAll_sequence (sessionId : Id) (at' : Stamp) (commandId : Option String)
    (positions : Id → Option Nat) (sequence : Nat) (events : List SessionEvent) :
    (placeAll sessionId at' commandId positions sequence events).map StoredSessionEvent.sequence =
      List.range' sequence events.length := by
  induction events generalizing positions sequence with
  | nil => rfl
  | cons event events ih =>
    rw [placeAll, map_cons, ih, length_cons, range'_succ]

theorem placeAll_length (sessionId : Id) (at' : Stamp) (commandId : Option String)
    (positions : Id → Option Nat) (sequence : Nat) (events : List SessionEvent) :
    (placeAll sessionId at' commandId positions sequence events).length = events.length := by
  have h := congrArg List.length
    (placeAll_sequence sessionId at' commandId positions sequence events)
  rwa [length_map, length_range'] at h

theorem placeAll_sessionId {sessionId : Id} {at' : Stamp} {commandId : Option String}
    {positions : Id → Option Nat} {sequence : Nat} {events : List SessionEvent}
    {stored : StoredSessionEvent}
    (h : stored ∈ placeAll sessionId at' commandId positions sequence events) :
    stored.sessionId = sessionId := by
  induction events generalizing positions sequence with
  | nil => cases h
  | cons event events ih =>
    rcases mem_cons.mp h with rfl | h
    · rfl
    · exact ih h

/-- `persist`: store an event and project it. -/
def persist (now : Date) (db : Db) (stored : StoredSessionEvent) : Db :=
  let db := project now db stored
  { db with
    eventSequence := update db.eventSequence stored.sessionId (some stored.sequence)
    events := db.events ++ [stored] }

/-- What a batch is appended with. -/
structure Append where
  sessionId : Id
  events : List SessionEvent
  commandId : Option String
  /-- `now()` of the transaction. -/
  now : Date
  /-- The clock when the batch is stamped. -/
  clock : Date

def append (db : Db) (input : Append) : Option Db :=
  (db.eventSequence input.sessionId).map fun sequence =>
    (placeAll input.sessionId (toISOString input.clock) input.commandId (fun _ => none)
      (sequence + 1) (currentTurns db input.sessionId input.events)).foldl (persist input.now) db

/-- Everything that writes the log: a session is created, a batch is appended. -/
inductive Write
  | create (sessionId : Id)
  | append (input : Append)

def write (db : Db) : Write → Option Db
  | .create sessionId =>
    if db.eventSequence sessionId = none then
      some { db with eventSequence := update db.eventSequence sessionId (some 0) }
    else none
  | .append input => append db input

/-- The stored events of a session, in order. -/
def eventsOf (db : Db) (sessionId : Id) : List StoredSessionEvent :=
  db.events.filter (·.sessionId = sessionId)

/-! ## What is written of the log -/

theorem project_log (now : Date) (db : Db) (stored : StoredSessionEvent) :
    (project now db stored).eventSequence = db.eventSequence ∧
      (project now db stored).events = db.events := by
  unfold project
  split <;> exact ⟨rfl, rfl⟩

theorem eventsOf_persist (now : Date) (db : Db) (stored : StoredSessionEvent) (sessionId : Id) :
    eventsOf (persist now db stored) sessionId =
      eventsOf db sessionId ++ (if stored.sessionId = sessionId then [stored] else []) := by
  have hevents := (project_log now db stored).2
  simp only [eventsOf, persist, hevents]
  by_cases hsession : stored.sessionId = sessionId <;> simp [hsession]

theorem eventSequence_persist (now : Date) (db : Db) (stored : StoredSessionEvent) :
    (persist now db stored).eventSequence =
      update db.eventSequence stored.sessionId (some stored.sequence) := by
  simp only [persist, (project_log now db stored).1]

theorem projects_log (now : Date) (stored : List StoredSessionEvent) (db : Db) :
    (stored.foldl (project now) db).eventSequence = db.eventSequence ∧
      (stored.foldl (project now) db).events = db.events := by
  induction stored generalizing db with
  | nil => exact ⟨rfl, rfl⟩
  | cons event stored ih =>
    obtain ⟨hsequence, hevents⟩ := ih (project now db event)
    obtain ⟨hsequence', hevents'⟩ := project_log now db event
    exact ⟨hsequence.trans hsequence', hevents.trans hevents'⟩

/-- A batch of one session goes to the end of its log, and of no other. -/
theorem eventsOf_persistAll (now : Date) {writer : Id} {batch : List StoredSessionEvent}
    (hwriter : ∀ stored ∈ batch, stored.sessionId = writer) (db : Db) (sessionId : Id) :
    eventsOf (batch.foldl (persist now) db) sessionId =
      eventsOf db sessionId ++ (if writer = sessionId then batch else []) := by
  induction batch generalizing db with
  | nil => simp
  | cons stored batch ih =>
    obtain rfl := hwriter stored mem_cons_self
    rw [foldl_cons, ih (List.forall_mem_cons.mp hwriter).2,
      eventsOf_persist]
    by_cases hsession : stored.sessionId = sessionId <;> simp [hsession]

/-- A batch numbered on from a session's sequence moves it by its length. -/
theorem eventSequence_persistAll (now : Date) {writer : Id} {batch : List StoredSessionEvent}
    (hwriter : ∀ stored ∈ batch, stored.sessionId = writer) {db : Db} {n : Nat}
    (hsequence : db.eventSequence writer = some n)
    (hnumbered : batch.map StoredSessionEvent.sequence = List.range' (n + 1) batch.length) :
    (batch.foldl (persist now) db).eventSequence =
      update db.eventSequence writer (some (n + batch.length)) := by
  induction batch generalizing db n with
  | nil => rw [foldl_nil, length_nil, Nat.add_zero, ← hsequence, update_eq_self]
  | cons stored batch ih =>
    obtain rfl := hwriter stored mem_cons_self
    rw [map_cons, length_cons, range'_succ, List.cons.injEq] at hnumbered
    obtain ⟨hnext, hrest⟩ := hnumbered
    have hmoved : (persist now db stored).eventSequence stored.sessionId = some (n + 1) := by
      rw [eventSequence_persist, update_self, hnext]
    rw [foldl_cons, ih (List.forall_mem_cons.mp hwriter).2
      hmoved hrest, eventSequence_persist, update_idem, length_cons]
    congr 2
    omega

end Catamorphic.Sessions.Log
