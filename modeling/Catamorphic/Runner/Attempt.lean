import Catamorphic.Lib.Runs

/-!
# The attempt runner

Runs one attempt of a turn on a harness adapter: it takes command frames, and writes
numbered frames. Everything happens on one event loop, so a command is taken only when
nothing else runs; but the harness is called in the middle of some commands, and it may
call the runner back before it returns. What is left to do then is a stack, and every step
of the harness may come in between.

A request of the harness is a promise. Promises are numbered in the order they were made,
and the ones settled are recorded.
-/

namespace Catamorphic.Runner.Attempt

abbrev CommandId := Nat

abbrev RequestKey := Nat

/-- The number of a promise `openRequest` returned. -/
abbrev Promise := Nat

inductive TurnEnd
  | completed
  | failed
  | interrupted
  deriving DecidableEq

/-- A harness event, by what the runner does with it. -/
inductive HarnessEvent
  | turnCompleted (status : TurnEnd)
  | requestOpened (key : RequestKey)
  | requestClosed (key : RequestKey) (reason : String)
  | other
  deriving DecidableEq

inductive FrameBody
  | hello
  | ack (commandId : CommandId) (error : Option String)
  | event (event : HarnessEvent)
  | call (callId : Nat)
  | exit
  deriving DecidableEq

structure Frame where
  seq : Nat
  body : FrameBody
  deriving DecidableEq

/-- What a `start` comes to before the adapter's own `start` is called. -/
inductive Admission
  /-- Another protocol, no such harness, no capabilities. -/
  | refused (message : String)
  | admitted
  deriving DecidableEq

inductive Command
  | start (admission : Admission)
  | steer
  | interrupt
  | respond (requestKey : RequestKey)
  | release (requestKey : RequestKey)
  | hostResult (callId : Nat)
  | stop
  deriving DecidableEq

/-- What the runner still has to do when the harness it called returns. -/
inductive Doing
  /-- In `adapter.start`, for a `start` command. -/
  | starting (id : CommandId)
  /-- In `control.steer`. -/
  | steering (id : CommandId)
  /-- In `control.interrupt`, for an `interrupt` command. -/
  | interrupting (id : CommandId)
  /-- In the listeners of the abort signal, for a `stop` command or for none. -/
  | stopping (id : Option CommandId)
  /-- In `control.interrupt` of `stop`. -/
  | ending (id : Option CommandId)
  deriving DecidableEq

structure State where
  seq : Nat
  seen : List (CommandId × Option String)
  /-- Commands taken whose acknowledgement waits on the harness. -/
  inFlight : List CommandId
  calls : List Nat
  requests : List (RequestKey × Promise)
  aborted : Bool
  /-- `control` is set. -/
  control : Bool
  completed : Bool
  exited : Bool
  killed : Bool
  callCounter : Nat
  doing : List Doing
  /-- The frames written. -/
  written : List Frame
  /-- The commands whose body ran. -/
  taken : List CommandId
  /-- How often an adapter's `start` was called. -/
  starts : Nat
  /-- How many promises of requests were made. -/
  opened : Nat
  /-- The promises settled, in order. -/
  settled : List Promise
  /-- How many requests were made before the last interrupt. -/
  openedAtInterrupt : Nat
  deriving DecidableEq

def State.initial : State where
  seq := 0
  seen := []
  inFlight := []
  calls := []
  requests := []
  aborted := false
  control := false
  completed := false
  exited := false
  killed := false
  callCounter := 0
  doing := []
  written := []
  taken := []
  starts := 0
  opened := 0
  settled := []
  openedAtInterrupt := 0

/-! ## The runner's methods -/

namespace State

def emitFrame (s : State) (body : FrameBody) : State :=
  if s.exited then s
  else { s with seq := s.seq + 1, written := s.written ++ [⟨s.seq + 1, body⟩] }

/-- `requests.delete(key)`, and its promise settled. -/
def settle (s : State) (key : RequestKey) (promise : Promise) : State :=
  { s with
    requests := s.requests.filter fun entry => entry.1 ≠ key
    settled := s.settled ++ [promise] }

def emitEvent (s : State) (event : HarnessEvent) : State :=
  if s.completed then s
  else
    match event with
    | .turnCompleted _ => { s with completed := true }.emitFrame (.event event)
    | .requestClosed key _ =>
      -- Closed already (or released, which leaves it open in Work).
      match s.requests.lookup key with
      | none => s
      | some promise => (s.settle key promise).emitFrame (.event event)
    | _ => s.emitFrame (.event event)

/-- Close one open request, when it is still open. -/
def withdrawRequest (s : State) (key : RequestKey) (reason : String) : State :=
  if (s.requests.lookup key).isSome then s.emitEvent (.requestClosed key reason) else s

def closeRequests (s : State) (reason : String) : State :=
  (s.requests.map Prod.fst).foldl (fun s key => s.withdrawRequest key reason) s

def ack (s : State) (id : CommandId) (error : Option String) : State :=
  { s with seen := (id, error) :: s.seen }.emitFrame (.ack id error)

def exit (s : State) : State :=
  if s.exited then s
  else { ({ s with calls := [] }.emitFrame .exit) with exited := true }

/-- `stop`, up to the listeners of the abort signal. -/
def stop (s : State) (id : Option CommandId) : State :=
  if s.aborted then s else { s with aborted := true, doing := .stopping id :: s.doing }

def failAttempt (s : State) : State := (s.emitEvent (.turnCompleted .failed)).stop none

/-- `kill`: release every wait before ending the harness. -/
def kill (s : State) : State :=
  { s with
    killed := true
    calls := []
    requests := []
    settled := s.settled ++ s.requests.map Prod.snd }.stop none

/-- `requests.set(key, …)` for the next promise. -/
def setRequest (s : State) (key : RequestKey) : State :=
  { s with
    requests :=
      if (s.requests.lookup key).isSome then
        s.requests.map fun entry => if entry.1 = key then (key, s.opened) else entry
      else s.requests ++ [(key, s.opened)]
    opened := s.opened + 1 }

def openRequest (s : State) (key : RequestKey) (signalAborted : Bool) : State :=
  if s.aborted || signalAborted then
    { s with opened := s.opened + 1, settled := s.settled ++ [s.opened] }
  else (s.setRequest key).emitEvent (.requestOpened key)

/-- A call of the harness to its host; `append` says it stores native state. -/
def call (s : State) (append tooLarge : Bool) : State :=
  if s.killed then s
  else if tooLarge then
    -- Native state without it would be incomplete: the attempt fails.
    if append then s.failAttempt else s
  else
    { s with
      callCounter := s.callCounter + 1
      calls := s.calls ++ [s.callCounter + 1] }.emitFrame (.call (s.callCounter + 1))

/-- The body of a command that was not seen before. -/
def take (s : State) (id : CommandId) : Command → State
  | .start admission =>
    if s.control then s.ack id (some "This runner already started its attempt")
    else
      match admission with
      | .refused message => s.ack id (some message)
      | .admitted =>
        { (s.emitFrame .hello) with
          starts := s.starts + 1, doing := .starting id :: s.doing }
  | .steer =>
    if !s.control || s.completed then s.ack id (some "not_running")
    else { s with inFlight := id :: s.inFlight, doing := .steering id :: s.doing }
  | .interrupt =>
    let closed :=
      { (s.closeRequests "The turn was interrupted before it was answered.") with
        openedAtInterrupt := s.opened }
    if closed.control then { closed with doing := .interrupting id :: closed.doing }
    else closed.ack id none
  | .respond key =>
    match s.requests.lookup key with
    | none => s.ack id (some "unknown_request")
    | some promise => (s.settle key promise).ack id none
  | .release key =>
    match s.requests.lookup key with
    | none => s.ack id (some "unknown_request")
    | some promise => (s.settle key promise).ack id none
  | .hostResult callId => { s with calls := s.calls.filter (· ≠ callId) }.ack id none
  | .stop => (s.ack id none).stop (some id)

def handle (s : State) (id : CommandId) (command : Command) : State :=
  if id ∈ s.inFlight then s
  else
    match s.seen.lookup id with
    | some error => s.emitFrame (.ack id error)
    | none => { s with taken := s.taken ++ [id] }.take id command

/-- The harness the runner called returns, or throws. -/
def resume (s : State) (threw : Option String) : Option State :=
  match s.doing with
  | [] => none
  | .starting id :: rest =>
    match threw with
    | none => some ({ s with control := true, doing := rest }.ack id none)
    | some _ =>
      let left := (s.emitEvent (.turnCompleted .failed)).exit
      some ({ left with doing := rest }.ack id none)
  | .steering id :: rest =>
    let s := { s with doing := rest }
    match threw with
    | none => some s
    | some message => some (s.ack id (some message))
  | .interrupting id :: rest => some ({ s with doing := rest }.ack id threw)
  | .stopping id :: rest =>
    -- A listener that throws is reported and does not stop the others.
    let closed := s.closeRequests "The turn stopped."
    some (if closed.control then { closed with doing := .ending id :: rest }
      else { closed.exit with doing := rest })
  | .ending id :: rest =>
    let s := { s with doing := rest }
    match threw, id with
    | some message, some id => some (s.ack id (some message))
    | _, _ => some s

/-- The turn ends without its harness having said so. -/
def endUnfinished (s : State) : State :=
  if s.completed then s
  else s.emitEvent (.turnCompleted (if s.aborted then .interrupted else .failed))

end State

/-! ## Steps -/

inductive Event
  /-- A command frame arrives. -/
  | handle (id : CommandId) (command : Command)
  | kill
  /-- What the runner called returns. -/
  | resume (threw : Option String)
  | emit (event : HarnessEvent)
  | call (append tooLarge : Bool)
  | request (key : RequestKey) (signalAborted : Bool)
  /-- The signal of a request aborts. -/
  | withdraw (key : RequestKey)
  /-- The answer of `control.steer`, as its acknowledgement. -/
  | steered (id : CommandId) (error : Option String)
  /-- `control.finished` rejects. -/
  | failed
  /-- `control.finished` settled. -/
  | finished
  deriving DecidableEq

/-- `step`: commands and settled promises wait for the event loop, the harness does not. -/
def step (s : State) : Event → Option State
  | .handle id command => if s.doing = [] then some (s.handle id command) else none
  | .kill => if s.doing = [] then some s.kill else none
  | .resume threw => s.resume threw
  | .emit event => if 0 < s.starts then some (s.emitEvent event) else none
  | .call append tooLarge => if 0 < s.starts then some (s.call append tooLarge) else none
  | .request key signalAborted =>
    if 0 < s.starts then some (s.openRequest key signalAborted) else none
  | .withdraw key =>
    if 0 < s.starts then some (s.withdrawRequest key "The harness withdrew the request.")
    else none
  | .steered id error =>
    if s.doing = [] ∧ id ∈ s.inFlight then
      some ({ s with inFlight := s.inFlight.filter (· ≠ id) }.ack id error)
    else none
  | .failed =>
    if s.doing = [] ∧ s.control then some (s.emitEvent (.turnCompleted .failed)) else none
  | .finished => if s.doing = [] ∧ s.control then some s.endUnfinished.exit else none

end Catamorphic.Runner.Attempt
