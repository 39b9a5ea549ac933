import Catamorphic.Lib.Runs
import Catamorphic.Sessions.Log

/-!
# Session commands

A command is run with an id, and its first receipt answers every repeat. Callers interleave
statement by statement: what a transaction has written is its own until it commits, the
session row's lock is held from `forUpdate` to the end of the transaction, and a receipt
inserted and not yet committed makes another insert of its key wait.
-/

namespace Catamorphic.Sessions.Commands

open Protocol Log Function

abbrev CommandId := String

/-- A process that calls `command`. -/
abbrev Caller := Nat

inductive ReceiptStatus
  | accepted
  | rejected
  deriving DecidableEq

/-- What a `SessionCommandRejectedError` says. -/
structure Refusal where
  code : String
  message : String
  deriving DecidableEq

structure CommandReceipt where
  commandId : CommandId
  status : ReceiptStatus
  sequence : Nat
  result : Option Json
  error : Option Refusal
  deriving DecidableEq

structure Input where
  sessionId : Id
  commandId : CommandId
  deriving DecidableEq

/-- How something a command calls ends. -/
inductive Outcome (α : Type)
  | returned (value : α)
  | rejected (refusal : Refusal)
  | threw

/-- Where a call of `command` stands; a transaction with the events it has appended. -/
inductive Point
  /-- Before the first `receipt`. -/
  | looking
  /-- In `before`. -/
  | preparing
  /-- In a transaction, at the session row. -/
  | locking
  /-- Under the lock, before the second `receipt`. -/
  | checking
  /-- In `run`. -/
  | running (appended : List StoredSessionEvent)
  /-- Before the accepted receipt is inserted. -/
  | inserting (appended : List StoredSessionEvent) (result : Option Json)
  | committing (appended : List StoredSessionEvent) (receipt : CommandReceipt)
  /-- Rolled back, before `latestSequence`. -/
  | rejecting (refusal : Refusal)
  /-- Before the rejected receipt is inserted. -/
  | refusing (refusal : Refusal) (sequence : Nat)
  /-- Before the last `receipt`. -/
  | rereading (refusal : Refusal) (sequence : Nat)
  | returned (receipt : CommandReceipt)
  /-- It threw, or its process is gone. -/
  | gone

structure State where
  /-- `agent_sessions.event_sequence`, of the sessions there are. -/
  eventSequence : Id → Option Nat
  /-- `agent_session_events` of a session. -/
  events : Id → List StoredSessionEvent
  /-- `agent_session_commands`, by its primary key. -/
  receipts : Id → CommandId → Option CommandReceipt
  /-- Who holds the lock of a session's row. -/
  lock : Id → Option Caller
  calls : Caller → Option (Input × Point)
  /-- A session's sequence when it was created. -/
  base : Id → Nat
  /-- What was committed on a session: the command whose body it was, and its events. -/
  commits : Id → List (Option CommandId × List StoredSessionEvent)

def State.initial : State where
  eventSequence := fun _ => none
  events := fun _ => []
  receipts := fun _ _ => none
  lock := fun _ => none
  calls := fun _ => none
  base := fun _ => 0
  commits := fun _ => []

namespace State

def at' (s : State) (c : Caller) (input : Input) (point : Point) : State :=
  { s with calls := update s.calls c (some (input, point)) }

/-- The end of a transaction. -/
def release (s : State) (sessionId : Id) : State :=
  { s with lock := update s.lock sessionId none }

/-- Events written, their numbers taken, as one commit. -/
def write (s : State) (sessionId : Id) (by' : Option CommandId)
    (appended : List StoredSessionEvent) : State :=
  { s with
    eventSequence := update s.eventSequence sessionId
      ((s.eventSequence sessionId).map (· + appended.length))
    events := update s.events sessionId (s.events sessionId ++ appended)
    commits := update s.commits sessionId (s.commits sessionId ++ [(by', appended)]) }

def insertReceipt (s : State) (sessionId : Id) (receipt : CommandReceipt) : State :=
  { s with
    receipts := update s.receipts sessionId
      (update (s.receipts sessionId) receipt.commandId (some receipt)) }

/-- A transaction has inserted a receipt for the key and did not end yet. -/
def inserted (s : State) (input : Input) : Bool :=
  match s.lock input.sessionId with
  | none => false
  | some c =>
    match s.calls c with
    | some (other, .committing _ _) => other = input
    | _ => false

end State

/-- A batch as the log stores it, after the events up to `sequence`. -/
def stored (sessionId : Id) (commandId : Option CommandId) (clock : Date) (sequence : Nat)
    (events : List SessionEvent) : List StoredSessionEvent :=
  placeAll sessionId (toISOString clock) commandId (fun _ => none) (sequence + 1) events

inductive Action
  | lookup
  | prepared (outcome : Outcome Unit)
  | lock
  | check
  /-- `append` in `run`, of what `currentTurns` leaves of a batch. -/
  | append (commandId : Option CommandId) (clock : Date) (events : List SessionEvent)
  | ran (outcome : Outcome (Option Json))
  | insert
  | commit
  | latestSequence
  | refuse
  | reread
  | crash

/-- The next statement of a call, on the state of the database. -/
def advance (s : State) (c : Caller) (input : Input) : Point → Action → Option State
  | .looking, .lookup =>
    match s.receipts input.sessionId input.commandId with
    | some receipt => some (s.at' c input (.returned receipt))
    | none => some (s.at' c input .preparing)
  | .preparing, .prepared outcome =>
    match outcome with
    | .returned _ => some (s.at' c input .locking)
    | .rejected refusal => some (s.at' c input (.rejecting refusal))
    | .threw => some (s.at' c input .gone)
  | .locking, .lock =>
    match s.eventSequence input.sessionId, s.lock input.sessionId with
    | none, _ => some (s.at' c input .gone)
    | some _, some _ => none
    | some _, none =>
      some ({ s with lock := update s.lock input.sessionId (some c) }.at' c input
        .checking)
  | .checking, .check =>
    match s.receipts input.sessionId input.commandId with
    | some receipt => some ((s.release input.sessionId).at' c input (.returned receipt))
    | none => some (s.at' c input (.running []))
  | .running appended, .append commandId clock events =>
    (s.eventSequence input.sessionId).map fun sequence =>
      s.at' c input (.running (appended ++
        stored input.sessionId commandId clock (sequence + appended.length) events))
  | .running appended, .ran outcome =>
    match outcome with
    | .returned result => some (s.at' c input (.inserting appended result))
    | .rejected refusal => some ((s.release input.sessionId).at' c input (.rejecting refusal))
    | .threw => some ((s.release input.sessionId).at' c input .gone)
  | .inserting appended result, .insert =>
    match s.receipts input.sessionId input.commandId with
    -- The key is taken: the statement fails, and the transaction with it.
    | some _ => some ((s.release input.sessionId).at' c input .gone)
    | none =>
      (s.eventSequence input.sessionId).map fun sequence =>
        s.at' c input (.committing appended
          ⟨input.commandId, .accepted, sequence + appended.length, result, none⟩)
  | .committing appended receipt, .commit =>
    some ((((s.write input.sessionId (some input.commandId) appended).insertReceipt
      input.sessionId receipt).release input.sessionId).at' c input (.returned receipt))
  | .rejecting refusal, .latestSequence =>
    some (s.at' c input (.refusing refusal ((s.eventSequence input.sessionId).getD 0)))
  | .refusing refusal sequence, .refuse =>
    match s.eventSequence input.sessionId with
    -- No session: the foreign key refuses the row.
    | none => some (s.at' c input .gone)
    | some _ =>
      if s.inserted input then none
      else
        match s.receipts input.sessionId input.commandId with
        | some _ => some (s.at' c input (.rereading refusal sequence))
        | none =>
          some ((s.insertReceipt input.sessionId
            ⟨input.commandId, .rejected, sequence, none, some refusal⟩).at' c input
              (.rereading refusal sequence))
  | .rereading refusal sequence, .reread =>
    some (s.at' c input (.returned ((s.receipts input.sessionId input.commandId).getD
        ⟨input.commandId, .rejected, sequence, none, some refusal⟩)))
  | .checking, .crash | .running _, .crash | .inserting _ _, .crash | .committing _ _, .crash =>
    some ((s.release input.sessionId).at' c input .gone)
  | .looking, .crash | .preparing, .crash | .locking, .crash | .rejecting _, .crash
  | .refusing _ _, .crash | .rereading _ _, .crash => some (s.at' c input .gone)
  | _, _ => none

inductive Event
  /-- A session is created, perhaps with a history that was never logged. -/
  | create (sessionId : Id) (sequence : Nat)
  /-- Another writer appends to a session's log, in a transaction of its own. -/
  | write (sessionId : Id) (commandId : Option CommandId) (clock : Date)
      (events : List SessionEvent)
  /-- `command` is called. -/
  | call (c : Caller) (input : Input)
  | advance (c : Caller) (action : Action)

def step (s : State) : Event → Option State
  | .create sessionId sequence =>
    match s.eventSequence sessionId with
    | some _ => none
    | none =>
      some { s with
        eventSequence := update s.eventSequence sessionId (some sequence)
        base := update s.base sessionId sequence }
  | .write sessionId commandId clock events =>
    match s.eventSequence sessionId, s.lock sessionId with
    | some sequence, none =>
      some (s.write sessionId none (stored sessionId commandId clock sequence events))
    | _, _ => none
  | .call c input => if (s.calls c).isNone then some (s.at' c input .looking) else none
  | .advance c action =>
    match s.calls c with
    | none => none
    | some (input, point) => advance s c input point action

end Catamorphic.Sessions.Commands
