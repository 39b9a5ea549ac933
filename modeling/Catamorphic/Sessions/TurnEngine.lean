import Catamorphic.Lib.Lease
import Catamorphic.Sessions.NativeState

/-!
# A turn and its holders

The turn engine drives a turn under the lease of its row. Everything another holder needs
is in the database: the turn's status, its attempts with the runner each was launched on,
how far that runner's output was read, the host calls not let go of yet. This module
embeds the transactions a holder makes under the ownership check, and what it does between
them with its own memory: it starts processes, reads their output, answers their calls.

A runner's output is the sequence of frames its process writes. What the holder reads is a
stretch of it from a cursor (the frame's index).
-/

namespace Catamorphic.Sessions.TurnEngine

open Option
open NativeState (Entry Store)

/-- A runner process, numbered in the order they were started. -/
abbrev Process := Nat

abbrev CallId := Nat

/-- A call of the harness to its host. Only an append changes what is stored. -/
inductive HostCall
  | append (subpath : Nat) (entries : List Entry)
  | other
  deriving DecidableEq

/-- A frame of a runner's output, by what the engine does with it. -/
inductive Frame
  /-- A harness event, for the ingest. -/
  | event
  | call (callId : CallId) (call : HostCall)
  /-- The acknowledgement of a host result. -/
  | ack (callId : CallId)
  /-- A hello, another acknowledgement, an exit. -/
  | other
  deriving DecidableEq

/-- A `native_state.append` request. -/
structure Append where
  callId : CallId
  subpath : Nat
  entries : List Entry
  deriving DecidableEq

def Frame.call? : Frame → Option (CallId × HostCall)
  | .call callId c => some (callId, c)
  | _ => none

def append? : CallId × HostCall → Option Append
  | (callId, .append subpath entries) => some ⟨callId, subpath, entries⟩
  | (_, .other) => none

/-- The host calls in some frames. -/
def calls (frames : List Frame) : List (CallId × HostCall) := frames.filterMap Frame.call?

/-- The append requests in some frames. -/
def appends (frames : List Frame) : List Append := (calls frames).filterMap append?

/-- The host results acknowledged in some frames. -/
def acks (frames : List Frame) : List CallId :=
  frames.filterMap fun
    | .ack callId => some callId
    | _ => none

/-- `APPLIED_APPEND`. -/
def appliedAppend : HostCall := .append 0 []

inductive TurnStatus
  | queued
  | preparing
  /-- Running or waiting. -/
  | working
  | finalizing
  | settled
  deriving DecidableEq

def TurnStatus.active : TurnStatus → Bool
  | .preparing | .working | .finalizing => true
  | .queued | .settled => false

inductive AttemptStatus
  | preparing
  | running
  | completed
  | failed
  | interrupted
  | superseded
  | lost
  deriving DecidableEq

/-- An attempt's runner as recorded. -/
structure RunnerState where
  process : Process
  cursor : Nat
  calls : List (CallId × HostCall)
  applied : List CallId
  ended : Bool
  deriving DecidableEq

structure Attempt where
  status : AttemptStatus
  thread : Option Nat
  runner : Option RunnerState
  deriving DecidableEq

/-- The turn in the database, and what its holders did outside of it. -/
structure Data where
  turn : TurnStatus
  attempts : List Attempt
  native : Store
  /-- Processes started so far. -/
  processes : Nat
  /-- The frames that committed transactions ingested, in order. -/
  ingested : List (Process × Nat)
  /-- The requests that committed transactions stored, in order. -/
  stored : List (Process × Nat × Append)
  /-- The requests answered as stored. -/
  sent : List (Process × CallId)
  deriving DecidableEq

/-- A runner a holder reads, and what it has of it in memory. -/
structure Attached where
  attempt : Nat
  thread : Nat
  process : Process
  cursor : Nat
  calls : List (CallId × HostCall)
  /-- The calls being answered one after another. -/
  todo : List (CallId × HostCall)
  /-- The appends answered as stored, sent until they are acknowledged. -/
  results : List CallId
  deriving DecidableEq

/-- Where a holder is in `drive`. -/
inductive Local
  /-- The turn is claimed, and not loaded yet. -/
  | start
  /-- The turn as it is known, and its active attempt. -/
  | ready (turn : TurnStatus) (attempt : Nat)
  /-- An attempt's process was started. -/
  | launched (attempt : Nat) (process : Process)
  | pump (w : Attached)
  /-- An ended attempt's runner is answered until it exits. -/
  | drain (turn : TurnStatus) (attempt : Nat) (w : Attached)
  | finished
  deriving DecidableEq

/-- The transactions that begin with the ownership check. -/
inductive Action
  /-- A new attempt. -/
  | begin
  | bindThread (thread : Nat)
  /-- One that only appends other events of the turn. -/
  | note
  /-- The attempt's runner is recorded, and the turn works. -/
  | launch
  | prepareAgain
  /-- The frames up to an index are applied. -/
  | applyFrames (upTo : Nat)
  | saveRunner
  /-- The attempt ended, and another of the same turn is prepared. -/
  | restart (status : AttemptStatus)
  | finalizing
  /-- The append that is answered next. -/
  | answer
  | markEnded (attempt : Nat)
  /-- `settle` and `lose`, with the statuses they leave. -/
  | settle (turn : TurnStatus) (attempt : AttemptStatus)
  deriving DecidableEq

/-- What a holder does outside of transactions. -/
inductive Act
  | loadTurn
  | startProcess
  | reattach
  | reattachSuperseded (attempt : Nat)
  /-- The drain reads on, up to an index. -/
  | readOn (upTo : Nat)
  /-- A call that is no append is answered. -/
  | pass
  | sendResults
  /-- The drain is over. -/
  | leave
  deriving DecidableEq

/-- A person tries a settled turn again. -/
inductive Outside
  | retry
  deriving DecidableEq

/-! ## Records -/

/-- An attempt still preparing or running ends with its turn. -/
def Attempt.finish (a : Attempt) (status : AttemptStatus) : Attempt :=
  if a.status = .preparing ∨ a.status = .running then { a with status } else a

/-- `record` with the entries of `added` over its own. -/
def merge (record added : List (CallId × HostCall)) : List (CallId × HostCall) :=
  record.filter (fun e => added.all (·.1 ≠ e.1)) ++ added

/-- `runnerWrite`: everything but the calls and the applied appends is the holder's. -/
def runnerWrite (recorded : Option RunnerState) (process : Process) (cursor : Nat)
    (added : List (CallId × HostCall)) (applied : List CallId) : RunnerState where
  process := process
  cursor := cursor
  calls := merge ((recorded.map RunnerState.calls).getD []) added
  applied := (recorded.map RunnerState.applied).getD [] ++ applied
  ended := false

/-- `forgetCall`, for every call of `delivered`. -/
def RunnerState.forget (r : RunnerState) (delivered : List CallId) : RunnerState :=
  { r with
    calls := r.calls.filter (fun e => e.1 ∉ delivered)
    applied := r.applied.filter (· ∉ delivered) }

def Data.setAttempt (d : Data) (i : Nat) (f : Attempt → Attempt) : Data :=
  { d with attempts := d.attempts.modify i f }

/-- The recorded runner of an attempt. -/
def Data.runner (d : Data) (i : Nat) : Option RunnerState := d.attempts[i]?.bind Attempt.runner

def Data.setRunner (d : Data) (i : Nat) (f : Option RunnerState → Option RunnerState) : Data :=
  d.setAttempt i fun a => { a with runner := f a.runner }

/-- A request's entries go to the thread's native state. -/
def Data.store (d : Data) (process thread : Nat) (q : Append) : Data :=
  { d with
    native := d.native.append ⟨thread, q.subpath⟩ q.entries
    stored := d.stored ++ [(process, thread, q)] }

/-! ## Frames -/

/-- What the loop over the frames of a batch gathers. -/
structure Batch where
  /-- The runner's calls as the holder has them. -/
  calls : List (CallId × HostCall)
  added : List (CallId × HostCall) := []
  appends : List Append := []
  delivered : List CallId := []

def Batch.frame (b : Batch) : Frame → Batch
  | .call callId call =>
    if b.calls.any (·.1 = callId) then b
    else match call with
      | .append subpath entries =>
        { b with
          appends := b.appends ++ [⟨callId, subpath, entries⟩]
          calls := b.calls ++ [(callId, appliedAppend)] }
      | .other =>
        { b with
          added := b.added ++ [(callId, call)]
          calls := b.calls ++ [(callId, call)] }
  | .ack callId => { b with delivered := b.delivered ++ [callId] }
  | .event | .other => b

def Batch.frames (calls : List (CallId × HostCall)) (frames : List Frame) : Batch :=
  frames.foldl Batch.frame { calls }

section

variable (output : Process → List Frame)

/-- The frames of a process from one index up to another. -/
def stretch (p : Process) (i j : Nat) : List Frame := ((output p).take j).drop i

/-- `applyFrames` on a batch, under the lock. -/
def applyFrames (upTo : Nat) (w : Attached) (d : Data) : Option (Data × Local) :=
  if w.todo = [] ∧ w.cursor ≤ upTo ∧ upTo ≤ (output w.process).length then
    let b := Batch.frames w.calls (stretch output w.process w.cursor upTo)
    let ids := b.appends.map Append.callId
    let d : Data :=
      { d with ingested := d.ingested ++
          (List.range' w.cursor (upTo - w.cursor)).map (fun i => (w.process, i)) }
    let d := b.appends.foldl (fun d q => d.store w.process w.thread q) d
    let d := d.setRunner w.attempt fun r =>
      some ((runnerWrite r w.process upTo (b.added ++ ids.map (·, appliedAppend)) ids).forget
        b.delivered)
    some (d, .pump { w with
        cursor := upTo
        calls := b.calls.filter (fun e => e.1 ∉ b.delivered)
        results := w.results.filter (· ∉ b.delivered) ++ ids })
  else none

/-- `answerCalls` on an append: stored unless it was, in one transaction with the mark. -/
def answerAppend (w : Attached) (q : Append) (d : Data) : Data :=
  if ((d.runner w.attempt).map RunnerState.applied).getD [] |>.contains q.callId then d
  else (d.store w.process w.thread q).setRunner w.attempt
    (·.map fun r => { r with applied := r.applied ++ [q.callId] })

/-- The runner after its next call was answered as stored. -/
def Attached.answered (w : Attached) (callId : CallId) : Attached :=
  { w with todo := w.todo.tail, results := w.results ++ [callId] }

/-- The append that is answered next. -/
def Attached.next? (w : Attached) : Option Append := w.todo.head?.bind append?

/-- The attempt a failure or an ending is recorded for. -/
def activeAttempt (d : Data) : Local → Nat
  | .start | .finished => d.attempts.length - 1
  | .ready _ i | .launched i _ | .drain _ i _ => i
  | .pump w => w.attempt

def commit : Action → Local → Data → Option (Data × Local)
  | .begin, .ready .preparing _, d =>
    if d.attempts.getLast?.all (·.status ≠ .preparing) then
      some ({ d with attempts := d.attempts ++ [⟨.preparing, none, none⟩] },
        .ready .preparing d.attempts.length)
    else none
  | .bindThread thread, .ready .preparing i, d =>
    some (d.setAttempt i fun a => { a with thread := some thread }, .ready .preparing i)
  | .note, m, d => some (d, m)
  | .launch, .launched i p, d =>
    match d.attempts[i]? with
    | some ⟨.preparing, some thread, _⟩ =>
      some ({ d with turn := .working }.setAttempt i fun a =>
          { a with status := .running, runner := some ⟨p, 0, [], [], false⟩ },
        .pump ⟨i, thread, p, 0, [], [], []⟩)
    | _ => none
  | .prepareAgain, .ready .working i, d =>
    some ({ d with turn := .preparing }.setAttempt i fun a =>
        { a with status := .preparing, runner := none },
      .ready .preparing i)
  | .applyFrames upTo, .pump w, d => applyFrames output upTo w d
  | .saveRunner, .pump w, d =>
    some (d.setRunner w.attempt fun r => some (runnerWrite r w.process w.cursor [] []), .pump w)
  | .restart status, .pump w, d =>
    if (status = .superseded ∨ status = .failed) ∧ w.todo = [] then
      some ({ d with turn := .preparing }.setAttempt w.attempt fun a => { a with status },
        .drain .preparing w.attempt w)
    else none
  | .finalizing, .pump w, d =>
    if w.todo = [] then
      some ({ d with turn := .finalizing }, .drain .finalizing w.attempt w)
    else none
  | .finalizing, .ready .preparing i, d =>
    some ({ d with turn := .finalizing }, .ready .finalizing i)
  | .answer, .pump w, d =>
    w.next?.map fun q => (answerAppend w q d, .pump (w.answered q.callId))
  | .answer, .drain turn i w, d =>
    w.next?.map fun q => (answerAppend w q d, .drain turn i (w.answered q.callId))
  | .markEnded j, .drain turn i w, d =>
    if j = w.attempt then
      some (d.setRunner j (·.map fun r => { r with ended := true }), .ready turn i)
    else none
  | .markEnded j, .ready turn i, d =>
    some (d.setRunner j (·.map fun r => { r with ended := true }), .ready turn i)
  | .settle turn status, m, d =>
    if ¬ turn.active then
      some ({ d with turn }.setAttempt (activeAttempt d m) (·.finish status), .finished)
    else none
  | _, _, _ => none

/-- The calls answered next, when the one before them failed or is no append. -/
def Attached.skip (w : Attached) : Attached := { w with todo := w.todo.tail }

/-- An append whose transaction failed is answered with the error. -/
def undo : Action → Local → Local
  | .answer, .pump w => .pump w.skip
  | .answer, .drain turn i w => .drain turn i w.skip
  | _, m => m

/-- A runner found again, from what is recorded of it. -/
def Data.attach (d : Data) (j : Nat) : Option Attached :=
  match d.attempts[j]? with
  | some ⟨_, some thread, some r⟩ => some ⟨j, thread, r.process, r.cursor, r.calls, r.calls, []⟩
  | _ => none

/-- Whether somebody saw the runner of an attempt end. -/
def Data.ended (d : Data) (j : Nat) : Bool := (d.runner j).all RunnerState.ended

def act : Act → Local → Data → Option (Data × Local)
  | .loadTurn, .start, d =>
    some (d, if d.turn.active then .ready d.turn (d.attempts.length - 1) else .finished)
  | .startProcess, .ready .preparing i, d =>
    some ({ d with processes := d.processes + 1 }, .launched i d.processes)
  | .reattach, .ready .working i, d => (d.attach i).map fun w => (d, .pump w)
  | .reattach, .ready .finalizing i, d =>
    if d.ended i then none else (d.attach i).map fun w => (d, .drain .finalizing i w)
  | .reattachSuperseded j, .ready .preparing i, d =>
    if d.attempts[j]?.any (·.status = .superseded) ∧ ¬ d.ended j then
      (d.attach j).map fun w => (d, .drain .preparing i w)
    else none
  | .readOn upTo, .drain turn i w, d =>
    if w.todo = [] ∧ w.cursor ≤ upTo ∧ upTo ≤ (output w.process).length then
      let frames := stretch output w.process w.cursor upTo
      some (d, .drain turn i { w with
          cursor := upTo
          todo := TurnEngine.calls frames
          results := w.results.filter (· ∉ acks frames) })
    else none
  | .pass, .pump w, d => if w.next? = none then some (d, .pump w.skip) else none
  | .pass, .drain turn i w, d => if w.next? = none then some (d, .drain turn i w.skip) else none
  | .sendResults, .pump w, d =>
    some ({ d with sent := d.sent ++ w.results.map (w.process, ·) }, .pump w)
  | .sendResults, .drain turn i w, d =>
    some ({ d with sent := d.sent ++ w.results.map (w.process, ·) }, .drain turn i w)
  | .leave, .drain turn i _, d => some (d, .ready turn i)
  | _, _, _ => none

def outside : Outside → Data → Option Data
  | .retry, d => if d.turn = .settled then some { d with turn := .queued } else none

/-- A turn's work under its lease. -/
def work : Lease.Work Data Local Action Act Outside where
  status d :=
    match d.turn with
    | .queued => .queued
    | .preparing | .working | .finalizing => .active
    | .settled => .settled
  claimed d := { d with turn := .preparing }
  fresh := .start
  -- A runner's state alone is saved without the session's lock.
  locks
    | .saveRunner | .markEnded _ => false
    | _ => true
  releases
    | .settle _ _ => true
    | _ => false
  commit := commit output
  undo := undo
  act := act output
  outside := outside

/-! ## What a commit and an act can do -/

/-- The transactions that can commit, one rule for each branch of `commit`. -/
inductive Committed : Action → Local → Data → Data → Local → Prop
  | begin {d i} (hlast : d.attempts.getLast?.all (·.status ≠ .preparing)) :
      Committed .begin (.ready .preparing i) d
        { d with attempts := d.attempts ++ [⟨.preparing, none, none⟩] }
        (.ready .preparing d.attempts.length)
  | bindThread {d i thread} :
      Committed (.bindThread thread) (.ready .preparing i) d
        (d.setAttempt i fun a => { a with thread := some thread }) (.ready .preparing i)
  | note {d m} : Committed .note m d d m
  | launch {d i p thread r} (hattempt : d.attempts[i]? = some ⟨.preparing, some thread, r⟩) :
      Committed .launch (.launched i p) d
        ({ d with turn := .working }.setAttempt i fun a =>
          { a with status := .running, runner := some ⟨p, 0, [], [], false⟩ })
        (.pump ⟨i, thread, p, 0, [], [], []⟩)
  | prepareAgain {d i} :
      Committed .prepareAgain (.ready .working i) d
        ({ d with turn := .preparing }.setAttempt i fun a =>
          { a with status := .preparing, runner := none })
        (.ready .preparing i)
  | applyFrames {d w upTo d' m'} (happly : TurnEngine.applyFrames output upTo w d = some (d', m')) :
      Committed (.applyFrames upTo) (.pump w) d d' m'
  | saveRunner {d w} :
      Committed .saveRunner (.pump w) d
        (d.setRunner w.attempt fun r => some (runnerWrite r w.process w.cursor [] [])) (.pump w)
  | restart {d w status} (hstatus : status = .superseded ∨ status = .failed) (htodo : w.todo = []) :
      Committed (.restart status) (.pump w) d
        ({ d with turn := .preparing }.setAttempt w.attempt fun a => { a with status })
        (.drain .preparing w.attempt w)
  | finalizing {d w} (htodo : w.todo = []) :
      Committed .finalizing (.pump w) d { d with turn := .finalizing }
        (.drain .finalizing w.attempt w)
  | finalizingReady {d i} :
      Committed .finalizing (.ready .preparing i) d { d with turn := .finalizing }
        (.ready .finalizing i)
  | answerPump {d w q} (hnext : w.next? = some q) :
      Committed .answer (.pump w) d (answerAppend w q d) (.pump (w.answered q.callId))
  | answerDrain {d turn i w q} (hnext : w.next? = some q) :
      Committed .answer (.drain turn i w) d (answerAppend w q d)
        (.drain turn i (w.answered q.callId))
  | markEndedDrain {d turn i w} :
      Committed (.markEnded w.attempt) (.drain turn i w) d
        (d.setRunner w.attempt (·.map fun r => { r with ended := true })) (.ready turn i)
  | markEnded {d turn i j} :
      Committed (.markEnded j) (.ready turn i) d
        (d.setRunner j (·.map fun r => { r with ended := true })) (.ready turn i)
  | settle {d m turn status} (hturn : ¬ turn.active) :
      Committed (.settle turn status) m d
        ({ d with turn }.setAttempt (activeAttempt d m) (·.finish status)) .finished

theorem committed_of_commit {a : Action} {m m' : Local} {d d' : Data}
    (h : commit output a m d = some (d', m')) : Committed output a m d d' m' := by
  unfold commit at h
  split at h
  · obtain ⟨hlast, h⟩ := ite_none_right_eq_some.mp h
    cases h
    exact .begin hlast
  · cases h
    exact .bindThread
  · cases h
    exact .note
  · split at h
    · rename_i hattempt
      cases h
      exact .launch hattempt
    · cases h
  · cases h
    exact .prepareAgain
  · exact .applyFrames h
  · cases h
    exact .saveRunner
  · obtain ⟨⟨hstatus, htodo⟩, h⟩ := ite_none_right_eq_some.mp h
    cases h
    exact .restart hstatus htodo
  · obtain ⟨htodo, h⟩ := ite_none_right_eq_some.mp h
    cases h
    exact .finalizing htodo
  · cases h
    exact .finalizingReady
  · obtain ⟨q, hnext, h⟩ := map_eq_some_iff.mp h
    cases h
    exact .answerPump hnext
  · obtain ⟨q, hnext, h⟩ := map_eq_some_iff.mp h
    cases h
    exact .answerDrain hnext
  · obtain ⟨hj, h⟩ := ite_none_right_eq_some.mp h
    cases h
    subst hj
    exact .markEndedDrain
  · cases h
    exact .markEnded
  · obtain ⟨hturn, h⟩ := ite_none_right_eq_some.mp h
    cases h
    exact .settle hturn
  · cases h

/-- The acts that can happen, one rule for each branch of `act`. -/
inductive Acted : Act → Local → Data → Data → Local → Prop
  | loadTurn {d} :
      Acted .loadTurn .start d d
        (if d.turn.active then .ready d.turn (d.attempts.length - 1) else .finished)
  | startProcess {d i} :
      Acted .startProcess (.ready .preparing i) d { d with processes := d.processes + 1 }
        (.launched i d.processes)
  | reattach {d i w} (hattach : d.attach i = some w) :
      Acted .reattach (.ready .working i) d d (.pump w)
  | reattachEnded {d i w} (hattach : d.attach i = some w) :
      Acted .reattach (.ready .finalizing i) d d (.drain .finalizing i w)
  | reattachSuperseded {d i j w} (hattach : d.attach j = some w) :
      Acted (.reattachSuperseded j) (.ready .preparing i) d d (.drain .preparing i w)
  | readOn {d turn i w upTo} (htodo : w.todo = []) (hfrom : w.cursor ≤ upTo) :
      Acted (.readOn upTo) (.drain turn i w) d d (.drain turn i { w with
          cursor := upTo
          todo := TurnEngine.calls (stretch output w.process w.cursor upTo)
          results := w.results.filter (· ∉ acks (stretch output w.process w.cursor upTo)) })
  | passPump {d w} (hnext : w.next? = none) : Acted .pass (.pump w) d d (.pump w.skip)
  | passDrain {d turn i w} (hnext : w.next? = none) :
      Acted .pass (.drain turn i w) d d (.drain turn i w.skip)
  | sendPump {d w} :
      Acted .sendResults (.pump w) d { d with sent := d.sent ++ w.results.map (w.process, ·) }
        (.pump w)
  | sendDrain {d turn i w} :
      Acted .sendResults (.drain turn i w) d
        { d with sent := d.sent ++ w.results.map (w.process, ·) } (.drain turn i w)
  | leave {d turn i w} : Acted .leave (.drain turn i w) d d (.ready turn i)

theorem acted_of_act {b : Act} {m m' : Local} {d d' : Data}
    (h : act output b m d = some (d', m')) : Acted output b m d d' m' := by
  unfold act at h
  split at h
  · cases h
    exact .loadTurn
  · cases h
    exact .startProcess
  · obtain ⟨w, hattach, h⟩ := map_eq_some_iff.mp h
    cases h
    exact .reattach hattach
  · split at h
    · cases h
    · obtain ⟨w, hattach, h⟩ := map_eq_some_iff.mp h
      cases h
      exact .reattachEnded hattach
  · obtain ⟨_, h⟩ := ite_none_right_eq_some.mp h
    obtain ⟨w, hattach, h⟩ := map_eq_some_iff.mp h
    cases h
    exact .reattachSuperseded hattach
  · obtain ⟨⟨htodo, hfrom, _⟩, h⟩ := ite_none_right_eq_some.mp h
    cases h
    exact .readOn htodo hfrom
  · obtain ⟨hnext, h⟩ := ite_none_right_eq_some.mp h
    cases h
    exact .passPump hnext
  · obtain ⟨hnext, h⟩ := ite_none_right_eq_some.mp h
    cases h
    exact .passDrain hnext
  · cases h
    exact .sendPump
  · cases h
    exact .sendDrain
  · cases h
    exact .leave
  · cases h

end

/-- `LEASE_SECONDS`. -/
def leaseSeconds : Nat := 60

/-- A turn as it was sent, before any attempt. -/
def Data.queued : Data := ⟨.queued, [], [], 0, [], [], []⟩

end Catamorphic.Sessions.TurnEngine
