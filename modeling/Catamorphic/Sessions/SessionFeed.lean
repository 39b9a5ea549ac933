import Catamorphic.Lib.Runs
import Catamorphic.Sessions.State
import Mathlib.Algebra.GroupWithZero.Nat

/-!
# Live session streams

One poller serves the open streams of a process: each tick reads the subscribed sessions'
events after their cursors in one query. A stream catches up when it is opened, with the
events after its client's cursor or, where these are too many, a fresh snapshot. Every query
is an await of its own: commits, ticks and other streams go on between the call, the moment
the database answers, and the moment the answer is taken up. The client folds what it is sent.
-/

namespace Catamorphic.Sessions.SessionFeed

open Protocol State Runs

/-! ## The client -/

/-- `SessionStreamMessage`, of the messages the feed sends. -/
inductive Message
  | events (events : List StoredSessionEvent)
  | reset (snapshot : SessionSnapshot)

/-- `withOlderItems`. -/
def withOlderItems (state : SessionState) (older : List Item) (olderBefore : Option Nat) :
    SessionState :=
  { state with items := older.foldl upsertItem state.items, olderBefore }

/-- A fresh snapshot against what the client holds: the newer of the two wins. -/
def mergeFresh (current fresh : SessionState) : SessionState :=
  if !current.stale && fresh.sequence < current.sequence then current
  else
    match fresh.olderBefore with
    | none => fresh
    | some freshFrom =>
      let older := current.items.filter (·.position < freshFrom)
      if older.isEmpty then fresh
      else
        withOlderItems fresh older
          (if current.olderBefore.all (· < freshFrom) then current.olderBefore
            else some freshFrom)

/-- `applyStreamMessage`. -/
def applyStreamMessage (state : SessionState) : Message → SessionState
  | .events events => applySessionEvents state events
  | .reset snapshot => mergeFresh state (sessionStateFromSnapshot snapshot)

/-! ## The log's reads -/

/-- `REPLAY_MAX_EVENTS`. -/
def replayMaxEvents : Nat := 256

/-- `REPLAY_MAX_BYTES`. -/
def replayMaxBytes : Nat := 1024 * 1024

/-- Events of a log after a sequence; `none` for a reset, when they are too many or too long. -/
def eventsAfter (bytes : StoredSessionEvent → Nat) (log : List StoredSessionEvent) (after : Nat) :
    Option (List StoredSessionEvent) :=
  let rows := (log.filter (after < ·.sequence)).take (replayMaxEvents + 1)
  if replayMaxEvents < rows.length then none
  else if replayMaxBytes < (rows.map bytes).sum then none
  else some rows

/-- Events of many sessions after their cursors, in the order of the sessions. -/
def eventsAfterMany (logs : Id → List StoredSessionEvent) (cursors : List (Id × Nat))
    (limit : Nat) : List StoredSessionEvent :=
  let bySession := cursors.mergeSort fun cursor other => cursor.1 ≤ other.1
  (bySession.flatMap fun cursor => (logs cursor.1).filter (cursor.2 < ·.sequence)).take limit

/-! ## The feed -/

/-- Events a subscriber may fall behind before it must resume. -/
def streamMaxPendingEvents : Nat := 1000

def streamMaxPendingBytes : Nat := 8 * 1024 * 1024

/-- Where a subscriber's `subscribe` stands. -/
inductive Phase
  /-- `eventsAfter` is called. -/
  | asking
  /-- It was answered. -/
  | answered (gap : Option (List StoredSessionEvent))
  /-- The gap was too large: `readSnapshot` is called. -/
  | resetting
  /-- It was answered. -/
  | read (snapshot : SessionSnapshot)
  | subscribed

structure Subscriber where
  /-- Which `subscribe` made it. -/
  key : Nat
  sessionId : Id
  after : Nat
  pendingBytes : Nat
  pendingEvents : Nat
  phase : Phase
  /-- In the feed's set: neither unsubscribed nor closed. -/
  live : Bool
  /-- The client's view when it subscribed, from whose sequence on it asked. -/
  client : SessionState
  /-- What was sent to it, in order. -/
  delivered : List Message

/-- A tick awaiting its query: the cursors it asked for, and the answer. -/
structure Tick where
  cursors : List (Id × Nat)
  answer : Option (List StoredSessionEvent)

structure Feed where
  /-- The committed events of each session. -/
  logs : Id → List StoredSessionEvent
  subscribers : List Subscriber
  ticks : List Tick

def Feed.initial : Feed := ⟨fun _ => [], [], []⟩

/-- What the transport and the encodings decide. -/
structure Transport where
  /-- `send`: false while the transport is buffering. -/
  send : Subscriber → Message → Bool
  /-- The length of a message's JSON. -/
  length : Message → Nat
  /-- `octet_length` of an event's payload. -/
  bytes : StoredSessionEvent → Nat

variable (transport : Transport)

/-- Send a message; a reader that cannot keep up is given up on. -/
def deliver (subscriber : Subscriber) (message : Message) : Subscriber :=
  let sent := { subscriber with delivered := subscriber.delivered ++ [message] }
  if transport.send subscriber message then { sent with pendingBytes := 0, pendingEvents := 0 }
  else
    let pendingEvents := subscriber.pendingEvents +
      match message with
      | .events events => events.length
      | .reset _ => 1
    let pendingBytes := subscriber.pendingBytes + transport.length message
    { sent with
      pendingEvents
      pendingBytes
      live := subscriber.live && pendingEvents ≤ streamMaxPendingEvents &&
        pendingBytes ≤ streamMaxPendingBytes }

/-- The events a subscriber was not sent yet. -/
def deliverEvents (subscriber : Subscriber) (events : List StoredSessionEvent) : Subscriber :=
  match (events.filter (subscriber.after < ·.sequence)).getLast? with
  | none => subscriber
  | some last =>
    deliver transport { subscriber with after := last.sequence }
      (.events (events.filter (subscriber.after < ·.sequence)))

/-- What `subscribe` does when its await is over. -/
def resume (subscriber : Subscriber) : Option Subscriber :=
  match subscriber.phase with
  | .answered none => some { subscriber with phase := .resetting }
  | .answered (some events) =>
    some (deliverEvents transport { subscriber with phase := .subscribed } events)
  | .read snapshot =>
    some (deliver transport { subscriber with
        phase := .subscribed
        after := max subscriber.after snapshot.sequence }
      (.reset snapshot))
  | _ => none

/-- The cursors of a tick: the least of each session's subscribers. -/
def addCursor (cursors : List (Id × Nat)) (subscriber : Subscriber) : List (Id × Nat) :=
  match cursors.lookup subscriber.sessionId with
  | none => cursors ++ [(subscriber.sessionId, subscriber.after)]
  | some _ => cursors.map fun cursor =>
    if cursor.1 = subscriber.sessionId then (cursor.1, min cursor.2 subscriber.after) else cursor

def cursorsOf (subscribers : List Subscriber) : List (Id × Nat) :=
  (subscribers.filter (·.live)).foldl addCursor []

/-- A tick's answer, to a subscriber. -/
def deliverTick (events : List StoredSessionEvent) (subscriber : Subscriber) : Subscriber :=
  let list := events.filter (·.sessionId = subscriber.sessionId)
  if subscriber.live && !list.isEmpty then deliverEvents transport subscriber list else subscriber

inductive Action
  /-- A transaction commits a session's next events. -/
  | commit (sessionId : Id) (events : List StoredSessionEvent)
  /-- A client that is not stale streams the session from its view's sequence. -/
  | subscribe (key : Nat) (sessionId : Id) (client : SessionState)
  /-- The database answers `eventsAfter`. -/
  | answerGap (index : Nat)
  /-- The database answers `readSnapshot`: one transaction, at one sequence. -/
  | answerSnapshot (index : Nat) (snapshot : SessionSnapshot)
  /-- An awaiting `subscribe` goes on. -/
  | resume (index : Nat)
  | unsubscribe (index : Nat)
  | beginTick
  /-- The database answers a tick's `eventsAfterMany`. -/
  | answerTick (index : Nat)
  /-- An awaiting tick goes on. -/
  | endTick (index : Nat)
  /-- End every stream: the process is stopping. -/
  | close

def step (feed : Feed) : Action → Option Feed
  | .commit sessionId events =>
    if events.map StoredSessionEvent.sequence =
        List.range' ((feed.logs sessionId).length + 1) events.length ∧
        ∀ stored ∈ events, stored.sessionId = sessionId then
      some { feed with
        logs := Function.update feed.logs sessionId (feed.logs sessionId ++ events) }
    else none
  | .subscribe key sessionId client =>
    if client.stale then none
    else
      some { feed with
        subscribers := feed.subscribers ++
          [{ key, sessionId
             after := client.sequence
             pendingBytes := 0
             pendingEvents := 0
             phase := .asking
             live := true
             client
             delivered := [] }] }
  | .answerGap index => do
    let subscriber ← feed.subscribers[index]?
    let .asking := subscriber.phase | none
    -- The query was given the client's cursor, not what ticks moved it to.
    let gap := eventsAfter transport.bytes (feed.logs subscriber.sessionId)
      subscriber.client.sequence
    some { feed with
      subscribers := feed.subscribers.set index { subscriber with phase := .answered gap } }
  | .answerSnapshot index snapshot => do
    let subscriber ← feed.subscribers[index]?
    let .resetting := subscriber.phase | none
    if snapshot.sequence = (feed.logs subscriber.sessionId).length then
      some { feed with
        subscribers := feed.subscribers.set index { subscriber with phase := .read snapshot } }
    else none
  | .resume index => do
    let subscriber ← feed.subscribers[index]?
    let resumed ← resume transport subscriber
    some { feed with subscribers := feed.subscribers.set index resumed }
  | .unsubscribe index => do
    let subscriber ← feed.subscribers[index]?
    some { feed with
      subscribers := feed.subscribers.set index { subscriber with live := false } }
  | .beginTick =>
    if (feed.subscribers.filter (·.live)).isEmpty then none
    else some { feed with ticks := feed.ticks ++ [⟨cursorsOf feed.subscribers, none⟩] }
  | .answerTick index => do
    let tick ← feed.ticks[index]?
    let none := tick.answer | none
    some { feed with
      ticks := feed.ticks.set index
        { tick with answer := some (eventsAfterMany feed.logs tick.cursors 2000) } }
  | .endTick index => do
    let tick ← feed.ticks[index]?
    let events ← tick.answer
    some { feed with
      subscribers := feed.subscribers.map (deliverTick transport events)
      ticks := feed.ticks.eraseIdx index }
  | .close =>
    some { feed with
      subscribers := feed.subscribers.map fun subscriber => { subscriber with live := false } }

end Catamorphic.Sessions.SessionFeed
