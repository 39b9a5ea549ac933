import Mathlib.Data.List.Basic

/-!
# The session protocol

The entities of a session and the events that change them, as they stand in the event log
and on the wire. A timestamp is the string a writer sent: what a database column keeps of it
is the instant, and what is read back is that instant as `toISOString` spells it.
-/

namespace Catamorphic.Sessions.Protocol

/-- The id of a session, a turn, an attempt, an item, a request or a provider thread. -/
abbrev Id := Nat

/-- A `Date`, in milliseconds. -/
abbrev Date := Int

/-- A timestamp that parses: the instant, and which of its spellings the string is. -/
structure Stamp where
  date : Date
  spelling : Nat
  deriving DecidableEq

/-- The spelling of `toISOString` is number 0. -/
def toISOString (date : Date) : Stamp := ⟨date, 0⟩

/-- A timestamp as `toISOString` writes it. -/
def Stamp.Iso (stamp : Stamp) : Prop := stamp.spelling = 0

theorem Stamp.Iso.eq {stamp : Stamp} (h : stamp.Iso) : toISOString stamp.date = stamp := by
  cases stamp with
  | mk date spelling =>
    cases h
    rfl

/-- A JSON value that nothing here looks into, as its text. -/
structure Json where
  text : String
  deriving DecidableEq

/-! ## Turns and attempts -/

inductive TurnStatus
  | queued
  | held
  | preparing
  | running
  | waiting
  | finalizing
  | completed
  | failed
  | interrupted
  | cancelled
  | rolledBack
  deriving DecidableEq

/-- `ACTIVE_TURN_STATUSES`. -/
def TurnStatus.active : TurnStatus → Bool
  | .preparing | .running | .waiting | .finalizing => true
  | _ => false

/-- `SETTLED_TURN_STATUSES`. -/
def TurnStatus.settled : TurnStatus → Bool
  | .completed | .failed | .interrupted | .cancelled | .rolledBack => true
  | _ => false

inductive TurnDispatch
  | queue
  | interrupt
  deriving DecidableEq

/-- A commit id, as its characters. -/
abbrev Commit := List Char

structure Checkpoint where
  before : Option Commit
  after : Option Commit

structure Turn where
  id : Id
  sessionId : Id
  ordinal : Nat
  status : TurnStatus
  inputItemId : Option Id
  dispatch : TurnDispatch
  priority : Int
  activity : Option String
  activityAt : Option Stamp
  providerRetry : Option Json
  attemptCount : Nat
  activeAttemptId : Option Id
  providerThreadId : Option Id
  retryAt : Option Stamp
  cancellationRequested : Bool
  error : Option Json
  outcome : Option Json
  checkpoint : Checkpoint
  continuationOf : Option Id
  createdAt : Stamp
  startedAt : Option Stamp
  completedAt : Option Stamp
  updatedAt : Stamp

inductive AttemptReason
  | initial
  | retry
  | steerRestart
  | recovery
  deriving DecidableEq

inductive AttemptStatus
  | preparing
  | running
  | completed
  | failed
  | interrupted
  | lost
  | superseded
  deriving DecidableEq

structure Attempt where
  id : Id
  turnId : Id
  sessionId : Id
  ordinal : Nat
  reason : AttemptReason
  status : AttemptStatus
  providerThreadId : Option Id
  nativeTurnRef : Option Json
  error : Option Json
  createdAt : Stamp
  startedAt : Option Stamp
  completedAt : Option Stamp

/-! ## Items -/

inductive ItemStatus
  | inProgress
  | completed
  | failed
  | cancelled
  deriving DecidableEq

inductive DispatchMode
  | queue
  | steer
  | interrupt
  | messageOnly
  deriving DecidableEq

/-- What every delivered input carries besides its own fields. -/
structure DeliveryFields where
  dispatch : DispatchMode
  /-- `attention: "required"`. -/
  attentionRequired : Bool
  idempotencyKey : Option String
  deliveredBy : Option String
  causation : List String

inductive AuthorKind
  | user
  | agent
  | assistant
  | workflow
  | system
  deriving DecidableEq

/-- Who wrote an item: a person, someone else (an `InboundSender`), or Work itself. -/
inductive Author
  | user (externalUserId : String)
  | agent (sessionId : Id) (agentId : Option Id) (projectId : Option Id)
  | assistant (externalUserId : String)
  | workflow (fields : Json)
  | system (code : String)

def Author.kind : Author → AuthorKind
  | .user _ => .user
  | .agent .. => .agent
  | .assistant _ => .assistant
  | .workflow _ => .workflow
  | .system _ => .system

inductive PlanStatus
  | pending
  | inProgress
  | completed
  deriving DecidableEq

structure PlanStep where
  text : String
  status : PlanStatus

/-- An item's kind with the fields of that kind. -/
inductive ItemBody
  | userMessage (delivery : DeliveryFields) (author : Author) (text : String) (rest : Json)
  | inboundMessage (delivery : DeliveryFields) (sender : Author) (text : String) (rest : Json)
  | taskNotification (delivery : DeliveryFields) (taskType : String) (summary : String)
      (rest : Json)
  | assistantMessage (text : String) (agentId : Option Id)
  | reasoning (text : String)
  | toolCall (tool : String) (description : Option String) (rest : Json)
  | command (command : String) (description : Option String) (output : String)
      (exitCode : Option Int)
  | fileChange (path : String) (rest : Json)
  | plan (steps : List PlanStep)
  | request (requestId : Id)
  | subagent (title : String) (rest : Json)
  | notice (code : String) (text : String) (data : Json)
  | contextHandoff (text : String) (rest : Json)

inductive ItemKind
  | userMessage
  | inboundMessage
  | taskNotification
  | assistantMessage
  | reasoning
  | toolCall
  | command
  | fileChange
  | plan
  | request
  | subagent
  | notice
  | contextHandoff
  deriving DecidableEq

def ItemBody.kind : ItemBody → ItemKind
  | .userMessage .. => .userMessage
  | .inboundMessage .. => .inboundMessage
  | .taskNotification .. => .taskNotification
  | .assistantMessage .. => .assistantMessage
  | .reasoning .. => .reasoning
  | .toolCall .. => .toolCall
  | .command .. => .command
  | .fileChange .. => .fileChange
  | .plan .. => .plan
  | .request .. => .request
  | .subagent .. => .subagent
  | .notice .. => .notice
  | .contextHandoff .. => .contextHandoff

structure Item where
  id : Id
  sessionId : Id
  turnId : Option Id
  attemptId : Option Id
  parentItemId : Option Id
  /-- Transcript order: the sequence of the event that added the item. -/
  position : Nat
  status : ItemStatus
  nativeRef : Option Json
  createdAt : Stamp
  updatedAt : Stamp
  startedAt : Option Stamp
  endedAt : Option Stamp
  body : ItemBody

/-- `{ ...item, position }`. -/
def Item.placedAt (item : Item) (position : Nat) : Item := { item with position := position }

@[simp] theorem Item.placedAt_id (item : Item) (position : Nat) :
    (item.placedAt position).id = item.id := rfl

/-- The two fields text is streamed into. -/
inductive StreamedField
  | text
  | output
  deriving DecidableEq

/-! ## Requests and provider threads -/

inductive RuntimeRequestKind
  | question
  | approval
  | elicitation
  deriving DecidableEq

inductive RuntimeRequestStatus
  | pending
  | resolved
  | expired
  | cancelled
  deriving DecidableEq

structure RuntimeRequest where
  id : Id
  sessionId : Id
  turnId : Option Id
  attemptId : Option Id
  itemId : Option Id
  kind : RuntimeRequestKind
  status : RuntimeRequestStatus
  answerable : Bool
  blocking : Bool
  /-- What is asked and of whom: title, origin, questions, approvers and the like. -/
  asked : Json
  expiresAt : Option Stamp
  response : Option Json
  resolvedBy : Option String
  reason : Option String
  createdAt : Stamp
  resolvedAt : Option Stamp

inductive ThreadStatus
  | active
  | unavailable
  | closed
  deriving DecidableEq

structure ProviderThread where
  id : Id
  sessionId : Id
  harness : String
  nativeRef : Option Json
  status : ThreadStatus
  lastTurnOrdinal : Option Nat
  portable : Bool
  createdAt : Stamp
  updatedAt : Stamp

/-! ## Session fields -/

inductive SessionStatus
  | active
  | closed
  deriving DecidableEq

inductive WorkStatus
  | opened
  | completed
  deriving DecidableEq

inductive HandoffStatus
  | none
  | pending
  deriving DecidableEq

inductive AgentEffort
  | low
  | medium
  | high
  | xhigh
  | max
  deriving DecidableEq

/-- A session's shared fields: what every viewer sees alike. -/
structure SessionFields where
  id : Id
  projectId : Id
  title : Option String
  icon : Option String
  agentId : Option Id
  harness : Option String
  model : Option String
  modelEffort : Option AgentEffort
  status : SessionStatus
  workStatus : WorkStatus
  activity : Option String
  todos : List Json
  metadata : Json
  /-- Absent, null, or where the session was imported from. -/
  imported : Option (Option Json)
  parentSessionId : Option Id
  forkedFromSessionId : Option Id
  attentionRevision : Nat
  environment : Option String
  authorityHostId : String
  authorityRevision : Nat
  handoffStatus : HandoffStatus
  updatedAt : Stamp

/-- `Partial<SessionFields>`: the fields that are there. -/
structure PartialFields where
  id : Option Id
  projectId : Option Id
  title : Option (Option String)
  icon : Option (Option String)
  agentId : Option (Option Id)
  harness : Option (Option String)
  model : Option (Option String)
  modelEffort : Option (Option AgentEffort)
  status : Option SessionStatus
  workStatus : Option WorkStatus
  activity : Option (Option String)
  todos : Option (List Json)
  metadata : Option Json
  imported : Option (Option Json)
  parentSessionId : Option (Option Id)
  forkedFromSessionId : Option (Option Id)
  attentionRevision : Option Nat
  environment : Option (Option String)
  authorityHostId : Option String
  authorityRevision : Option Nat
  handoffStatus : Option HandoffStatus
  updatedAt : Option Stamp

/-- `{ ...session, ...fields }`. -/
def SessionFields.spread (session : SessionFields) (fields : PartialFields) : SessionFields where
  id := fields.id.getD session.id
  projectId := fields.projectId.getD session.projectId
  title := fields.title.getD session.title
  icon := fields.icon.getD session.icon
  agentId := fields.agentId.getD session.agentId
  harness := fields.harness.getD session.harness
  model := fields.model.getD session.model
  modelEffort := fields.modelEffort.getD session.modelEffort
  status := fields.status.getD session.status
  workStatus := fields.workStatus.getD session.workStatus
  activity := fields.activity.getD session.activity
  todos := fields.todos.getD session.todos
  metadata := fields.metadata.getD session.metadata
  imported := fields.imported.or session.imported
  parentSessionId := fields.parentSessionId.getD session.parentSessionId
  forkedFromSessionId := fields.forkedFromSessionId.getD session.forkedFromSessionId
  attentionRevision := fields.attentionRevision.getD session.attentionRevision
  environment := fields.environment.getD session.environment
  authorityHostId := fields.authorityHostId.getD session.authorityHostId
  authorityRevision := fields.authorityRevision.getD session.authorityRevision
  handoffStatus := fields.handoffStatus.getD session.handoffStatus
  updatedAt := fields.updatedAt.getD session.updatedAt

/-- A session as it is created. -/
def SessionFields.created (id projectId : Id) (createdAt : Stamp) : SessionFields where
  id := id
  projectId := projectId
  title := none
  icon := none
  agentId := none
  harness := none
  model := none
  modelEffort := none
  status := .active
  workStatus := .opened
  activity := none
  todos := []
  metadata := ⟨"{}"⟩
  imported := none
  parentSessionId := none
  forkedFromSessionId := none
  attentionRevision := 0
  environment := none
  authorityHostId := ""
  authorityRevision := 0
  handoffStatus := .none
  updatedAt := createdAt

/-! ## Events -/

/-- One change to a session. -/
inductive SessionEvent
  | sessionChanged (session : PartialFields)
  | turnChanged (turn : Turn)
  | attemptChanged (attempt : Attempt)
  | itemAdded (item : Item)
  | itemChanged (item : Item)
  | itemTextAppended (itemId : Id) (field : StreamedField) (text : String) (at' : Stamp)
  | requestChanged (request : RuntimeRequest)
  | providerThreadChanged (thread : ProviderThread)

/-- An event as the log stores it. -/
structure StoredSessionEvent where
  sessionId : Id
  /-- Per session, gapless, starting at 1. -/
  sequence : Nat
  at' : Stamp
  commandId : Option String
  event : SessionEvent

/-- A view of a session at one sequence. -/
structure SessionSnapshot where
  sequence : Nat
  session : SessionFields
  turns : List Turn
  attempts : List Attempt
  items : List Item
  requests : List RuntimeRequest
  providerThreads : List ProviderThread
  /-- The earliest item position in this snapshot, when older items exist. -/
  olderBefore : Option Nat

end Catamorphic.Sessions.Protocol
