import Catamorphic.Sessions.Protocol
import Mathlib.Logic.Function.Basic

/-!
# Importing another tool's transcript

A transcript is read again and again as it grows. Each reading becomes the events that are new in
it: a turn is known by the native ref of its attempt, an item by its own. Every id that was drawn
once is kept.
-/

namespace Catamorphic.Sessions.Import

open Protocol (Id Date Stamp toISOString TurnStatus AttemptStatus TurnDispatch AttemptReason
  ItemStatus ItemBody Author DeliveryFields PlanStep)

deriving instance DecidableEq for Author
deriving instance DecidableEq for DeliveryFields
deriving instance DecidableEq for PlanStep
deriving instance DecidableEq for ItemBody

/-! ## The transcript -/

structure ImportedItem where
  key : String
  parentKey : Option String
  status : ItemStatus
  at' : Stamp
  item : ItemBody

structure ImportedInput where
  key : String
  text : String
  at' : Stamp

inductive ImportedStatus
  | completed
  | failed
  | interrupted

def ImportedStatus.turn : ImportedStatus → TurnStatus
  | .completed => .completed
  | .failed => .failed
  | .interrupted => .interrupted

def ImportedStatus.attempt : ImportedStatus → AttemptStatus
  | .completed => .completed
  | .failed => .failed
  | .interrupted => .interrupted

structure ImportedTurn where
  key : String
  input : Option ImportedInput
  status : ImportedStatus
  error : Option String
  startedAt : Stamp
  completedAt : Option Stamp
  items : List ImportedItem

structure ImportedTranscript where
  turns : List ImportedTurn

/-! ## What the session has -/

structure NativeRef where
  id : String
  /-- `strength: "strong"` -/
  strong : Bool
  deriving DecidableEq

structure TurnError where
  message : String
  deriving DecidableEq

structure Turn where
  id : Id
  sessionId : Id
  ordinal : Nat
  status : TurnStatus
  inputItemId : Option Id
  dispatch : TurnDispatch
  priority : Int
  activity : Option String
  activityAt : Option Stamp
  providerRetry : Option Protocol.Json
  attemptCount : Nat
  activeAttemptId : Option Id
  providerThreadId : Option Id
  retryAt : Option Stamp
  cancellationRequested : Bool
  error : Option TurnError
  outcome : Option Protocol.Json
  checkpointBefore : Option Protocol.Commit
  checkpointAfter : Option Protocol.Commit
  continuationOf : Option Id
  createdAt : Stamp
  startedAt : Option Stamp
  completedAt : Option Stamp
  updatedAt : Stamp
  deriving DecidableEq

structure Attempt where
  id : Id
  turnId : Id
  sessionId : Id
  ordinal : Nat
  reason : AttemptReason
  status : AttemptStatus
  providerThreadId : Option Id
  nativeTurnRef : Option NativeRef
  error : Option TurnError
  createdAt : Stamp
  startedAt : Option Stamp
  completedAt : Option Stamp
  deriving DecidableEq

structure Item where
  id : Id
  sessionId : Id
  turnId : Option Id
  attemptId : Option Id
  parentItemId : Option Id
  position : Nat
  status : ItemStatus
  nativeRef : Option NativeRef
  createdAt : Stamp
  updatedAt : Stamp
  startedAt : Option Stamp
  endedAt : Option Stamp
  body : ItemBody
  deriving DecidableEq

inductive SessionEvent
  | turnChanged (turn : Turn)
  | attemptChanged (attempt : Attempt)
  | itemAdded (item : Item)
  | itemChanged (item : Item)

/-- The turns, attempts and items of the turns that a transcript names. -/
structure Existing where
  turns : List Turn
  attempts : List Attempt
  items : List Item

structure Known where
  turn : Turn
  attempt : Attempt

/-! ## The records of a reading -/

/-- Whose session it is. -/
structure Owned where
  sessionId : Id
  owner : String

def truthy (text : Option String) : Option String := text.filter fun text => text ≠ ""

/-- `changed(before, after, ["updatedAt"])` -/
def Turn.changed (before after : Turn) : Bool :=
  { before with updatedAt := after.updatedAt } ≠ after

def Attempt.changed (before after : Attempt) : Bool := before ≠ after

def Item.changed (before after : Item) : Bool :=
  { before with updatedAt := after.updatedAt } ≠ after

section

variable (session : Owned)

def userMessage (id turnId : Id) (imported : ImportedInput) (existing : Option Item) : Item where
  id := id
  sessionId := session.sessionId
  turnId := some turnId
  attemptId := none
  parentItemId := none
  position := existing.elim 0 Item.position
  status := .completed
  nativeRef := some ⟨imported.key, true⟩
  createdAt := imported.at'
  updatedAt := existing.elim imported.at' Item.updatedAt
  startedAt := some imported.at'
  endedAt := some imported.at'
  body := .userMessage ⟨.queue, false, none, some session.owner, []⟩ (.user session.owner)
    imported.text ⟨"[]"⟩

def importedItem (id turnId attemptId : Id) (imported : ImportedItem) (existing : Option Item)
    (parentItemId : Option Id) : Item where
  id := id
  sessionId := session.sessionId
  turnId := some turnId
  attemptId := some attemptId
  parentItemId := parentItemId
  position := existing.elim 0 Item.position
  status := imported.status
  nativeRef := some ⟨imported.key, true⟩
  createdAt := existing.elim imported.at' Item.createdAt
  updatedAt := existing.elim imported.at' Item.updatedAt
  startedAt := some ((existing.bind Item.startedAt).getD imported.at')
  endedAt :=
    if imported.status ≠ .inProgress then some ((existing.bind Item.endedAt).getD imported.at')
    else none
  body := imported.item

def importedTurn (turnId : Id) (ordinal : Nat) (inputItemId : Option Id)
    (imported : ImportedTurn) : Turn where
  id := turnId
  sessionId := session.sessionId
  ordinal := ordinal
  status := imported.status.turn
  inputItemId := inputItemId
  dispatch := .queue
  priority := 0
  activity := none
  activityAt := none
  providerRetry := none
  attemptCount := 1
  activeAttemptId := none
  providerThreadId := none
  retryAt := none
  cancellationRequested := false
  error := (truthy imported.error).map TurnError.mk
  outcome := none
  checkpointBefore := none
  checkpointAfter := none
  continuationOf := none
  createdAt := imported.startedAt
  startedAt := some imported.startedAt
  completedAt := imported.completedAt
  updatedAt := imported.completedAt.getD imported.startedAt

def importedAttempt (turnId attemptId : Id) (imported : ImportedTurn) : Attempt where
  id := attemptId
  turnId := turnId
  sessionId := session.sessionId
  ordinal := 1
  reason := .initial
  status := imported.status.attempt
  providerThreadId := none
  nativeTurnRef := some ⟨imported.key, true⟩
  error := (truthy imported.error).map TurnError.mk
  createdAt := imported.startedAt
  startedAt := some imported.startedAt
  completedAt := imported.completedAt

end

/-! ## Reading a transcript -/

/-- Where the reading stands: what it knows by key, and what it has drawn and said. -/
structure Reading where
  itemsByKey : String → Option Item
  ordinal : Nat
  drawn : Nat
  events : List SessionEvent

def Reading.emit (r : Reading) (event : SessionEvent) : Reading :=
  { r with events := r.events ++ [event] }

/-- `known ?? randomUUID()`; `uuid n` is the `n`-th draw. -/
def Reading.draw (uuid : Nat → Id) (r : Reading) (known : Option Id) : Id × Reading :=
  match known with
  | some id => (id, r)
  | none => (uuid r.drawn, { r with drawn := r.drawn + 1 })

def Reading.push (r : Reading) (item : Item) (existing : Option Item) : Reading :=
  let r := match truthy (item.nativeRef.map NativeRef.id) with
    | some key => { r with itemsByKey := Function.update r.itemsByKey key (some item) }
    | none => r
  match existing with
  | none => r.emit (.itemAdded item)
  | some existing => if existing.changed item then r.emit (.itemChanged item) else r

/-- The turn that is being read. -/
structure Cursor extends Reading where
  turnId : Id
  attemptId : Id

section

variable (uuid : Nat → Id) (session : Owned) (turnsByKey : String → Option Known)

/-- What comes before a turn's items. -/
def openTurn (r : Reading) (imported : ImportedTurn) : Cursor :=
  let known := turnsByKey imported.key
  let (turnId, r) := r.draw uuid (known.map fun known => known.turn.id)
  let (attemptId, r) := r.draw uuid (known.map fun known => known.attempt.id)
  let (inputItemId, r) := match imported.input with
    | some input =>
      let existing := r.itemsByKey input.key
      let (id, r) := r.draw uuid (existing.map Item.id)
      (some id, r.push (userMessage session id turnId input existing) existing)
    | none => (none, r)
  let (ordinal, r) := match known with
    | some known => (known.turn.ordinal, r)
    | none => (r.ordinal + 1, { r with ordinal := r.ordinal + 1 })
  let turn := importedTurn session turnId ordinal
    (inputItemId <|> known.bind fun known => known.turn.inputItemId) imported
  let r := if known.all fun known => known.turn.changed turn then r.emit (.turnChanged turn) else r
  let attempt := importedAttempt session turnId attemptId imported
  let r := if known.all fun known => known.attempt.changed attempt then
    r.emit (.attemptChanged attempt) else r
  { r with turnId, attemptId }

def importItem (c : Cursor) (imported : ImportedItem) : Cursor :=
  let existing := c.itemsByKey imported.key
  let (id, r) := c.draw uuid (existing.map Item.id)
  let parentItemId := (truthy imported.parentKey).bind fun key => (r.itemsByKey key).map Item.id
  { c with
    toReading := r.push
      (importedItem session id c.turnId c.attemptId imported existing parentItemId) existing }

def importTurn (r : Reading) (imported : ImportedTurn) : Reading :=
  (imported.items.foldl (importItem uuid session)
    (openTurn uuid session turnsByKey r imported)).toReading

end

def turnsByKey (existing : Existing) : String → Option Known :=
  existing.attempts.foldl (fun map attempt =>
    match existing.turns.find? (fun turn => turn.id = attempt.turnId), attempt.nativeTurnRef with
    | some turn, some ref => Function.update map ref.id (some ⟨turn, attempt⟩)
    | _, _ => map) fun _ => none

def itemsByKey (existing : Existing) : String → Option Item :=
  existing.items.foldl (fun map item =>
    match item.nativeRef with
    | some ref => Function.update map ref.id (some item)
    | none => map) fun _ => none

/-- `importedTranscriptEvents`, with how many ids were drawn after it. -/
def importedTranscriptEvents (uuid : Nat → Id) (session : Owned) (transcript : ImportedTranscript)
    (existing : Existing) (lastOrdinal drawn : Nat) : Reading :=
  transcript.turns.foldl (importTurn uuid session (turnsByKey existing))
    ⟨itemsByKey existing, lastOrdinal, drawn, []⟩

/-! ## The session -/

/-- A session as its rows read. -/
structure Session where
  sequence : Nat
  turns : List Turn
  attempts : List Attempt
  items : List Item

/-- A timestamp as it reads from a column. -/
def stored (stamp : Stamp) : Stamp := toISOString stamp.date

def Turn.row (turn : Turn) : Turn :=
  { turn with
    activityAt := turn.activityAt.map stored
    createdAt := stored turn.createdAt
    startedAt := turn.startedAt.map stored
    completedAt := turn.completedAt.map stored
    updatedAt := stored turn.updatedAt }

def Attempt.row (attempt : Attempt) : Attempt :=
  { attempt with
    createdAt := stored attempt.createdAt
    startedAt := attempt.startedAt.map stored
    completedAt := attempt.completedAt.map stored }

/-- `insert … on conflict (id) do update` -/
def upsert {Row : Type} (idOf : Row → Id) (row : Row) (update : Row → Row) (rows : List Row) :
    List Row :=
  if rows.any fun old => idOf old = idOf row then
    rows.map fun old => if idOf old = idOf row then update old else old
  else rows ++ [row]

/-- What an event makes of the session. A turn's ordinal and when it was made, whose an attempt
is, and an item's position never change. -/
def Session.apply (s : Session) (event : SessionEvent) : Session :=
  let sequence := s.sequence + 1
  match event with
  | .turnChanged turn =>
    { s with
      sequence
      turns := upsert Turn.id turn.row (fun old =>
        { turn.row with ordinal := old.ordinal, createdAt := old.createdAt }) s.turns }
  | .attemptChanged attempt =>
    { s with
      sequence
      attempts := upsert Attempt.id attempt.row (fun old =>
        { attempt.row with
          turnId := old.turnId
          ordinal := old.ordinal
          reason := old.reason
          createdAt := old.createdAt }) s.attempts }
  | .itemAdded item =>
    { s with
      sequence
      items := upsert Item.id { item with position := sequence }
        (fun old => { item with position := old.position }) s.items }
  | .itemChanged item =>
    { s with
      sequence
      items := upsert Item.id item (fun old => { item with position := old.position }) s.items }

def Session.lastOrdinal (s : Session) : Nat := (s.turns.map Turn.ordinal).foldl max 0

/-- What the import reads of the session: what is of the turns that the transcript names. -/
def Session.existing (s : Session) (transcript : ImportedTranscript) : Existing :=
  let attempts := s.attempts.filter fun attempt =>
    attempt.nativeTurnRef.any fun ref => transcript.turns.any fun turn => turn.key = ref.id
  { turns := s.turns.filter fun turn => attempts.any fun attempt => attempt.turnId = turn.id
    attempts := attempts
    items := s.items.filter fun item =>
      item.turnId.any fun turnId => attempts.any fun attempt => attempt.turnId = turnId }

/-- A session, and how many ids have been drawn. -/
structure World where
  session : Session
  drawn : Nat

section

variable (uuid : Nat → Id) (session : Owned) (w : World) (transcript : ImportedTranscript)

def World.read : Reading :=
  importedTranscriptEvents uuid session transcript (w.session.existing transcript)
    w.session.lastOrdinal w.drawn

/-- The transcript is imported: its events are appended. -/
def World.imported : World :=
  ⟨(w.read uuid session transcript).events.foldl Session.apply w.session,
    (w.read uuid session transcript).drawn⟩

end

end Catamorphic.Sessions.Import
