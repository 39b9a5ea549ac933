import Mathlib.Logic.Function.Basic
import Catamorphic.Lib.Runs

/-!
# Claims shared by replicas

A named claim is a row with a holder and an expiry. A call of `withReplicaClaim` takes the row,
runs its operation, renews the row meanwhile and gives it back. A request is on its way to the
database for any time and its answer on its way back; either may be lost, and a request that
failed for its call may still arrive. The calls set timers of their own by what they were
answered. All clocks run at one speed and only spans are compared, so there is one time here;
timers that are due by a moment have fired.
-/

namespace Catamorphic.Replicas.Claims

open Function

/-- Milliseconds. -/
abbrev Time := Nat
/-- A call, and the holder it names. -/
abbrev CallId := Nat
abbrev RequestId := Nat

/-- The row of the claim in `replica_claims`. -/
structure Row where
  holder : CallId
  expiresAt : Time
  deriving DecidableEq

inductive RequestKind
  | take
  | renew
  | release
  deriving DecidableEq

structure Answer where
  held : Bool
  /-- `now()` when the request was carried out. -/
  executedAt : Time
  deriving DecidableEq

structure Request where
  call : CallId
  kind : RequestKind
  ttl : Time
  dispatched : Time
  /-- None while it is on its way. -/
  answer : Option Answer := none
  deriving DecidableEq

/-- What the call comes to once it holds the claim. -/
inductive Result
  /-- What the operation settled with. -/
  | settled
  /-- `ReplicaClaimLostError` -/
  | lost
  deriving DecidableEq

/-- A call that took the claim. -/
structure Hold where
  /-- The operation has not settled. -/
  running : Bool := true
  aborted : Bool := false
  /-- The timer that loses the claim. -/
  expiry : Option Time := none
  renewing : Option RequestId := none
  nextRenewal : Time
  result : Option Result := none
  releasing : Bool := false
  /-- When the row was taken. -/
  takenAt : Time
  /-- The timer was set by a renewal. -/
  renewed : Bool := false
  deriving DecidableEq

inductive Phase
  | taking (request : RequestId)
  | polling (until' : Time)
  | holding (hold : Hold)
  deriving DecidableEq

structure Call where
  ttl : Time
  /-- When it no longer waits for a held claim. -/
  deadline : Time
  pollMs : Time
  phase : Phase
  deriving DecidableEq

structure World where
  clock : Time
  row : Option Row
  requests : RequestId → Option Request
  /-- How many requests there were. -/
  sent : Nat
  /-- The calls that go on, or that held the claim. -/
  calls : CallId → Option Call
  /-- How many calls there were. -/
  begun : Nat
  /-- The call whose claim took effect last. -/
  last : Option CallId
  /-- The calls whose claim another one took over before their operation settled. -/
  overtaken : CallId → Bool

def start (clock : Time) : World where
  clock
  row := none
  requests := fun _ => none
  sent := 0
  calls := fun _ => none
  begun := 0
  last := none
  overtaken := fun _ => false

/-! ## The database -/

/-- `takeReplicaClaim` -/
def takeReplicaClaim (row : Option Row) (holder : CallId) (ttl now : Time) : Option Row × Bool :=
  match row with
  | none => (some ⟨holder, now + ttl⟩, true)
  | some row =>
    if row.expiresAt ≤ now then (some ⟨holder, now + ttl⟩, true) else (some row, false)

/-- `renewReplicaClaim` -/
def renewReplicaClaim (row : Option Row) (holder : CallId) (ttl now : Time) : Option Row × Bool :=
  match row with
  | none => (none, false)
  | some row =>
    if row.holder = holder ∧ now < row.expiresAt then (some ⟨holder, now + ttl⟩, true)
    else (some row, false)

/-- `releaseReplicaClaim` -/
def releaseReplicaClaim (row : Option Row) (holder : CallId) : Option Row :=
  row.filter (·.holder ≠ holder)

/-! ## A call -/

/-- `loseClaim` -/
def Hold.loseClaim (hold : Hold) : Hold :=
  if hold.aborted then hold
  else { hold with aborted := true, result := some (hold.result.getD .lost) }

/-- The timer has fired by `now`. -/
def Hold.elapse (hold : Hold) (now : Time) : Hold :=
  if hold.expiry.any (· ≤ now) then { hold with expiry := none }.loseClaim else hold

/-- `holdUntil` -/
def Hold.holdUntil (hold : Hold) (deadline now : Time) : Hold :=
  { hold with expiry := some deadline }.elapse now

/-- How often a call renews. -/
def renewalInterval (ttl : Time) : Time := max 250 (ttl / 4)

/-- The operation starts. -/
def Call.hold (call : Call) (now takenAt : Time) : Hold :=
  { nextRenewal := now + renewalInterval call.ttl, takenAt : Hold }.holdUntil (now + call.ttl) now

/-- The operation settles: the call comes to that, unless it lost its claim. -/
def Hold.settle (hold : Hold) : Hold :=
  { hold with running := false, expiry := none, result := some (hold.result.getD .settled) }

/-- A renewal is answered. -/
def Hold.answered (hold : Hold) (call : Call) (request : Request) (held : Bool) (now : Time) :
    Hold :=
  let hold := { hold with renewing := none }
  if held ∧ hold.aborted = false then
    { hold with renewed := true }.holdUntil (request.dispatched + call.ttl) now
  else hold.loseClaim

/-! ## Steps -/

namespace World

def setCall (w : World) (c : CallId) (call : Call) : World :=
  { w with calls := update w.calls c (some call) }

def endCall (w : World) (c : CallId) : World :=
  { w with calls := update w.calls c none }

def setHold (w : World) (c : CallId) (call : Call) (hold : Hold) : World :=
  w.setCall c { call with phase := .holding hold }

/-- A request goes on its way. -/
def send (w : World) (c : CallId) (kind : RequestKind) (ttl : Time) : World :=
  { w with
    requests := update w.requests w.sent (some ⟨c, kind, ttl, w.clock, none⟩)
    sent := w.sent + 1 }

def setAnswer (w : World) (r : RequestId) (request : Request) (held : Bool) : World :=
  { w with
    requests :=
      update w.requests r (some { request with answer := some ⟨held, w.clock⟩ }) }

/-- The timers of a call have fired by `now`. -/
def elapse (w : World) (now : Time) : World :=
  { w with
    clock := now
    calls := fun c =>
      (w.calls c).map fun call =>
        match call.phase with
        | .holding hold => { call with phase := .holding (hold.elapse now) }
        | _ => call }

/-- The operation of a call runs, or is still to start. -/
def unsettled (w : World) (c : CallId) : Bool :=
  (w.calls c).any fun call =>
    match call.phase with
    | .holding hold => hold.running
    | _ => true

/-- A claim takes effect. -/
def takeover (w : World) (c : CallId) : World :=
  { w with
    last := some c
    overtaken := fun other => w.overtaken other || (w.last = some other && w.unsettled other) }

/-- A request is carried out. -/
def execute (w : World) (r : RequestId) (request : Request) : World :=
  match request.kind with
  | .take =>
    let (row, held) := takeReplicaClaim w.row request.call request.ttl w.clock
    let w := { w with row }.setAnswer r request held
    if held then w.takeover request.call else w
  | .renew =>
    let (row, held) := renewReplicaClaim w.row request.call request.ttl w.clock
    { w with row }.setAnswer r request held
  | .release =>
    { w with row := releaseReplicaClaim w.row request.call }.setAnswer r request true

/-- An answer arrives, or the failure of the request; what nobody waits for is dropped. -/
def deliver (w : World) (r : RequestId) (request : Request) (answer : Option Answer) : World :=
  match w.calls request.call with
  | none => w
  | some call =>
    match call.phase, answer with
    | .taking r', some answer =>
      if r' = r then
        if answer.held then
          w.setHold request.call call (call.hold w.clock answer.executedAt)
        else if call.deadline ≤ w.clock then w.endCall request.call
        else w.setCall request.call { call with phase := .polling (w.clock + call.pollMs) }
      else w
    | .taking r', none => if r' = r then w.endCall request.call else w
    | .holding hold, some answer =>
      if hold.renewing = some r then
        w.setHold request.call call (hold.answered call request answer.held w.clock)
      else w
    | .holding hold, none =>
      if hold.renewing = some r then
        w.setHold request.call call { hold with renewing := none }
      else w
    | .polling _, _ => w

end World

inductive Action
  /-- Time passes. -/
  | tick
  | begin (ttl waitMs pollMs : Time)
  /-- A call that waits asks again. -/
  | poll (c : CallId)
  | renew (c : CallId)
  /-- The operation settles. -/
  | settle (c : CallId)
  | release (c : CallId)
  /-- A request arrives and is carried out. -/
  | execute (r : RequestId)
  | answer (r : RequestId)
  | fail (r : RequestId)
  /-- The process of a call dies. -/
  | die (c : CallId)
  deriving DecidableEq

def step (w : World) : Action → Option World
  | .tick => some (w.elapse (w.clock + 1))
  | .begin ttl waitMs pollMs =>
    let call : Call := {
      ttl, deadline := w.clock + waitMs, pollMs, phase := .taking w.sent }
    some ({ w with begun := w.begun + 1 }.setCall w.begun call |>.send w.begun .take ttl)
  | .poll c =>
    match w.calls c with
    | some ⟨ttl, deadline, pollMs, .polling until'⟩ =>
      if until' ≤ w.clock then
        some (w.setCall c ⟨ttl, deadline, pollMs, .taking w.sent⟩ |>.send c .take ttl)
      else none
    | _ => none
  | .renew c =>
    match w.calls c with
    | some ⟨ttl, deadline, pollMs, .holding hold⟩ =>
      if hold.nextRenewal ≤ w.clock ∧ hold.result = none ∧ hold.renewing = none ∧
          hold.aborted = false then
        let hold := { hold with
          renewing := some w.sent, nextRenewal := hold.nextRenewal + renewalInterval ttl }
        some (w.setHold c ⟨ttl, deadline, pollMs, .holding hold⟩ hold |>.send c .renew ttl)
      else none
    | _ => none
  | .settle c =>
    match w.calls c with
    | some ⟨ttl, deadline, pollMs, .holding hold⟩ =>
      if hold.running then
        some (w.setHold c ⟨ttl, deadline, pollMs, .holding hold⟩ hold.settle)
      else none
    | _ => none
  | .release c =>
    match w.calls c with
    | some ⟨ttl, deadline, pollMs, .holding hold⟩ =>
      if hold.result.isSome ∧ hold.renewing = none ∧ hold.releasing = false then
        let hold := { hold with releasing := true }
        some (w.setHold c ⟨ttl, deadline, pollMs, .holding hold⟩ hold |>.send c .release ttl)
      else none
    | _ => none
  | .execute r =>
    match w.requests r with
    | some request => if request.answer = none then some (w.execute r request) else none
    | none => none
  | .answer r =>
    match w.requests r with
    | some request =>
      if request.answer.isSome then some (w.deliver r request request.answer) else none
    | none => none
  | .fail r => (w.requests r).map fun request => w.deliver r request none
  | .die c => some (w.endCall c)

/-! ## Exclusion -/

/-- **A claim is exclusive while its work runs**: whose operation runs, and was not told to stop,
took the claim last. -/
def World.Exclusive (w : World) : Prop :=
  ∀ c call hold, w.calls c = some call → call.phase = .holding hold → hold.running = true →
    hold.aborted = false → w.last = some c

/-- **Who was overtaken rejects**: nothing else comes of the call. -/
def World.Rejects (w : World) : Prop :=
  ∀ c call hold, w.calls c = some call → call.phase = .holding hold → w.overtaken c = true →
    hold.result = some .lost

/-- **What a step must meet.** When a take finds the claim free or lapsed, no operation runs on a
timer that was set by the late answer of its take; and the answer of a take finds the claim not
taken since. -/
def Careful (w : World) : Action → Prop
  | .execute r =>
    ∀ request, w.requests r = some request → request.kind = .take →
      w.row.all (·.expiresAt ≤ w.clock) = true → ∀ c call hold, w.calls c = some call →
        call.phase = .holding hold →
        hold.running = true → hold.aborted = false → hold.renewed = false →
          hold.expiry.all (· ≤ hold.takenAt + call.ttl) = true
  | .answer r =>
    ∀ request answer, w.requests r = some request → request.kind = .take →
      request.answer = some answer → answer.held = true → w.last = some request.call
  | _ => True

end Catamorphic.Replicas.Claims
