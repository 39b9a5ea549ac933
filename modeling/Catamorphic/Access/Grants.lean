import Catamorphic.Lib.RowLocks
import Catamorphic.Lib.Runs

/-!
# Connection capability grants

A grant is a bearer for one alias of one allocation. Issuing takes a share lock on the
allocation, and for a model turn on the turn, revokes the session's previous grants for the
alias and channel, unless it keeps them until `revokeOthers`, and inserts the new one.
Validation joins the allocation: a grant is only as live as that.

Every statement is a step of its own. A statement that updates rows takes its rows from
what is committed when it starts, waits for each row that another transaction holds, and
looks at the row again when it has it. A grant is known by its publication revision.
-/

namespace Catamorphic.Access.ConnectionGrants

open RowLocks Function

abbrev AllocationId := Nat
abbrev SessionId := Nat
abbrev TurnId := Nat
abbrev AttemptId := Nat
abbrev LeaseToken := Nat
abbrev ConnectionId := Nat
abbrev GrantId := Nat
abbrev TxnId := Nat
abbrev Alias := Nat
abbrev Token := Nat
abbrev Hash := Nat
abbrev Capability := Nat

/-- Milliseconds. -/
abbrev Time := Int

/-! ## Rows -/

inductive Channel
  | mcp
  | sandbox
  deriving DecidableEq, Repr

inductive AllocationStatus
  | active
  | released
  deriving DecidableEq, Repr

structure Binding where
  aliasName : Alias
  connectionId : ConnectionId
  capabilities : List Capability
  deriving DecidableEq, Repr

structure Allocation where
  status : AllocationStatus
  connections : List Binding
  deriving DecidableEq, Repr

/-- The exact claim that a model grant is issued for. -/
structure ModelGrantFence where
  turnId : TurnId
  attemptId : AttemptId
  leaseToken : LeaseToken
  deriving DecidableEq, Repr

inductive TurnStatus
  | queued
  | preparing
  | running
  | waiting
  | ended
  deriving DecidableEq, Repr

structure Turn where
  sessionId : SessionId
  activeAttemptId : Option AttemptId
  leaseToken : Option LeaseToken
  leaseExpiresAt : Time
  cancellationRequested : Bool
  status : TurnStatus
  deriving DecidableEq, Repr

structure Session where
  allocationId : Option AllocationId
  active : Bool
  deriving DecidableEq, Repr

structure Attempt where
  turnId : TurnId
  sessionId : SessionId
  /-- `preparing` or `running` -/
  active : Bool
  deriving DecidableEq, Repr

structure Grant where
  allocationId : AllocationId
  agentSessionId : Option SessionId
  aliasName : Alias
  channel : Channel
  connectionId : ConnectionId
  tokenHash : Hash
  capabilities : List Capability
  expiresAt : Time
  modelTurn : Option ModelGrantFence
  revoked : Bool
  deriving DecidableEq, Repr

/-- What a session keeps one live grant for. -/
structure Key where
  session : SessionId
  aliasName : Alias
  channel : Channel
  deriving DecidableEq, Repr

def Grant.key (g : Grant) : Option Key := g.agentSessionId.map fun s => ⟨s, g.aliasName, g.channel⟩

def MAX_GRANT_TTL_SECONDS : Int := 3600

/-! ## Updates of grants -/

inductive Update
  /-- The first half of `issue`. -/
  | previous (key : Key)
  /-- `revokeOthers`: those published before `keep`, or of them those bound to no turn. -/
  | older (key : Key) (keep : GrantId) (unbound : Bool)
  | session (s : SessionId) (channel : Channel)
  | allocation (a : AllocationId)
  | connection (c : ConnectionId)
  | extend (s : SessionId) (channel : Channel) (expiresAt : Time)
  deriving DecidableEq, Repr

/-- The `where` clause. -/
def Update.covers (u : Update) (id : GrantId) (g : Grant) : Bool :=
  !g.revoked && match u with
    | .previous key => g.key = some key
    | .older key keep unbound => g.key = some key && id < keep && (!unbound || g.modelTurn.isNone)
    | .session s channel | .extend s channel _ => g.agentSessionId = some s && g.channel = channel
    | .allocation a => g.allocationId = a
    | .connection c => g.connectionId = c

def Update.set (u : Update) (g : Grant) : Grant :=
  match u with
  | .extend _ _ expiresAt => { g with expiresAt }
  | _ => { g with revoked := true }

/-! ## Transactions -/

/-- What `revokeOthers` is the other half of: grants issued with `keepPrevious`. -/
inductive Note
  | opened (id : GrantId)
  | closed (id : GrantId)
  /-- The turn it was issued for was no longer live, so nothing was revoked. -/
  | lapsed (id : GrantId)
  deriving DecidableEq, Repr

/-- A statement of the operations that neither issue nor keep a grant. -/
inductive Statement
  | update (u : Update)
  | updating (u : Update) (ids : List GrantId)
  | release (a : AllocationId) (activeOnly : Bool)
  deriving DecidableEq, Repr

/-- Where a transaction is. -/
inductive Task
  /-- `issue` -/
  | shareAllocation (row : Grant) (keepPrevious : Bool)
  | shareTurn (row : Grant) (keepPrevious : Bool)
  | revokePrevious (row : Grant) (key : Key)
  | revoking (row : Grant) (key : Key) (ids : List GrantId)
  | insert (row : Grant) (keepPrevious : Bool)
  | inserted (row : Grant) (keepPrevious : Bool) (id : GrantId)
  /-- `revokeOthers` -/
  | selectKeep (key : Key) (keep : GrantId)
  | shareKept (key : Key) (keep : GrantId) (fence : ModelGrantFence)
  | revokeOlder (key : Key) (keep : GrantId) (unbound : Bool)
  | revokingOlder (key : Key) (keep : GrantId) (unbound : Bool) (ids : List GrantId)
  | kept (key : Key) (note : Option Note)
  /-- The others. -/
  | quiet (statements : List Statement)
  deriving DecidableEq, Repr

def Task.key : Task → Option Key
  | .shareAllocation row _ | .shareTurn row _ | .revokePrevious row _ | .revoking row _ _
  | .insert row _ | .inserted row _ _ => row.key
  | .selectKeep key _ | .shareKept key _ _ | .revokeOlder key _ _ | .revokingOlder key _ _ _
  | .kept key _ => some key
  | .quiet _ => none

structure World where
  now : Time
  allocations : Store AllocationId Allocation TxnId
  /-- `for share` on an allocation. -/
  shares : AllocationId → List TxnId
  turns : TurnId → Option Turn
  turnShares : TurnId → List TxnId
  sessions : SessionId → Option Session
  attempts : AttemptId → Option Attempt
  grants : Store GrantId Grant TxnId
  /-- The sequence of publication revisions. -/
  next : GrantId
  tasks : TxnId → Option Task
  notes : List Note

def start : World where
  now := 0
  allocations := .start fun _ => none
  shares := fun _ => []
  turns := fun _ => none
  turnShares := fun _ => []
  sessions := fun _ => none
  attempts := fun _ => none
  grants := .start fun _ => none
  next := 0
  tasks := fun _ => none
  notes := []

def World.setTask (w : World) (t : TxnId) (task : Task) : World :=
  { w with tasks := update w.tasks t (some task) }

/-- A transaction ends: its locks go. -/
def World.unlock (w : World) (t : TxnId) : World :=
  { w with
    shares := fun a => (w.shares a).filter (· ≠ t)
    turnShares := fun i => (w.turnShares i).filter (· ≠ t)
    tasks := update w.tasks t none }

def World.rollback (w : World) (t : TxnId) : World :=
  { w.unlock t with grants := w.grants.rollback t, allocations := w.allocations.rollback t }

def World.commit (w : World) (t : TxnId) (note : Option Note) : World :=
  { w.unlock t with
    grants := w.grants.commit t
    allocations := w.allocations.commit t
    notes := w.notes ++ note.toList }

/-- `exists (… execution_allocations … status = 'active')` -/
def World.active (w : World) (a : AllocationId) : Bool :=
  (w.allocations.rows a).any (·.status = .active)

/-- The rows that a statement is about when it starts. -/
def World.targets (w : World) (t : TxnId) (u : Update) : List GrantId :=
  (List.range w.next).filter fun id =>
    (w.grants.view t id).any fun g => u.covers id g &&
      match u with
      | .extend _ _ _ => w.active g.allocationId
      | _ => true

/-- The turn is still in the hands that a fence names. -/
def World.holdsTurn (w : World) (fence : ModelGrantFence) : Bool :=
  (w.turns fence.turnId).any fun turn =>
    turn.activeAttemptId = some fence.attemptId && turn.leaseToken = some fence.leaseToken &&
      w.now < turn.leaseExpiresAt && !turn.cancellationRequested &&
      [TurnStatus.preparing, .running, .waiting].contains turn.status

/-- The turn, its session and its attempt, as `issue` asks for them. -/
def World.mayIssueFor (w : World) (fence : ModelGrantFence) (s : SessionId) (a : AllocationId) :
    Bool :=
  w.holdsTurn fence && ((w.turns fence.turnId).any (·.sessionId = s)) &&
    ((w.sessions s).any fun row => row.allocationId = some a && row.active) &&
    (w.attempts fence.attemptId).any fun row =>
      row.turnId = fence.turnId && row.sessionId = s && row.active

def World.shareTurn (w : World) (t : TxnId) (i : TurnId) : World :=
  { w with turnShares := update w.turnShares i (t :: w.turnShares i) }

/-- What `issue` does after its locks. -/
def afterLocks (row : Grant) (keepPrevious : Bool) : Task :=
  match row.key with
  | some key => if keepPrevious then .insert row true else .revokePrevious row key
  | none => .insert row keepPrevious

/-- One row of an update. -/
def World.updateRow (w : World) (t : TxnId) (u : Update) (id : GrantId) (task : Task) :
    Option World :=
  (w.grants.update t id (u.covers id) u.set).map fun grants => { w with grants }.setTask t task

/-- The next statement of a transaction, or its end; `none` while it waits for a lock. -/
def World.proceed (w : World) (t : TxnId) : Task → Option World
  | .shareAllocation row keepPrevious =>
    if w.allocations.free t row.allocationId then
      if (w.allocations.view t row.allocationId).any (·.status = .active) then
        some ({ w with
          shares := update w.shares row.allocationId
            (t :: w.shares row.allocationId) }.setTask t
              (if row.modelTurn.isSome then .shareTurn row keepPrevious
                else afterLocks row keepPrevious))
      else some (w.rollback t)
    else none
  | .shareTurn row keepPrevious =>
    match row.modelTurn, row.agentSessionId with
    | some fence, some s =>
      if w.mayIssueFor fence s row.allocationId then
        some ((w.shareTurn t fence.turnId).setTask t (afterLocks row keepPrevious))
      else some (w.rollback t)
    | _, _ => some (w.rollback t)
  | .revokePrevious row key =>
    some (w.setTask t (.revoking row key (w.targets t (.previous key))))
  | .revoking row key (id :: ids) => w.updateRow t (.previous key) id (.revoking row key ids)
  | .revoking row _ [] => some (w.setTask t (.insert row false))
  | .insert row keepPrevious =>
    some ({ w with grants := w.grants.hold t w.next (some row), next := w.next + 1 }.setTask t
      (.inserted row keepPrevious w.next))
  | .inserted _ keepPrevious id => some (w.commit t
      (if keepPrevious then some (.opened id) else none))
  | .selectKeep key keep =>
    match w.grants.view t keep with
    | some g =>
      if g.key = some key ∧ g.revoked = false then
        some (w.setTask t (match g.modelTurn with
          | some fence => .shareKept key keep fence
          | none => .revokeOlder key keep true))
      else some (w.setTask t (.kept key none))
    | none => some (w.setTask t (.kept key none))
  | .shareKept key keep fence =>
    if w.holdsTurn fence then
      some ((w.shareTurn t fence.turnId).setTask t (.revokeOlder key keep false))
    else some (w.setTask t (.kept key (some (.lapsed keep))))
  | .revokeOlder key keep unbound =>
    some (w.setTask t (.revokingOlder key keep unbound (w.targets t (.older key keep unbound))))
  | .revokingOlder key keep unbound (id :: ids) =>
    w.updateRow t (.older key keep unbound) id (.revokingOlder key keep unbound ids)
  | .revokingOlder key keep _ [] => some (w.setTask t (.kept key (some (.closed keep))))
  | .kept _ note => some (w.commit t note)
  | .quiet [] => some (w.commit t none)
  | .quiet (.update u :: rest) =>
    some (w.setTask t (.quiet (.updating u (w.targets t u) :: rest)))
  | .quiet (.updating u (id :: ids) :: rest) =>
    w.updateRow t u id (.quiet (.updating u ids :: rest))
  | .quiet (.updating _ [] :: rest) => some (w.setTask t (.quiet rest))
  | .quiet (.release a activeOnly :: rest) =>
    if w.allocations.free t a ∧ (w.shares a).all (· = t) then
      match w.allocations.view t a with
      | some row =>
        if activeOnly = false ∨ row.status = .active then
          some ({ w with
            allocations := w.allocations.hold t a
              (some { row with status := .released }) }.setTask
              t (.quiet rest))
        else some (w.setTask t (.quiet rest))
      | none => some (w.setTask t (.quiet rest))
    else none

/-! ## Operations -/

structure Issue where
  allocationId : AllocationId
  agentSessionId : Option SessionId
  aliasName : Alias
  ttlSeconds : Option Int
  channel : Option Channel
  keepPrevious : Bool
  modelTurn : Option ModelGrantFence
  token : Token
  deriving DecidableEq, Repr

inductive Op
  | issue (args : Issue)
  | revokeOthers (key : Key) (keepId : GrantId)
  | extend (s : SessionId) (channel : Channel) (ttlSeconds : Option Int)
  | revokeSession (s : SessionId) (channel : Channel)
  | revokeAllocation (a : AllocationId)
  /-- The connection itself is revoked. -/
  | revokeConnection (c : ConnectionId)
  /-- `ExecutionAllocationsService.release` -/
  | release (a : AllocationId)
  /-- `parkRun` -/
  | parkRun (a : AllocationId)
  /-- `retireAllocation`, when the machine is gone. -/
  | retireAllocation (a : AllocationId)
  /-- The coordinator's `releaseAllocation`. -/
  | releaseAllocation (a : AllocationId)
  deriving DecidableEq, Repr

section Operations

variable (hashBearer : Token → Hash)

/-- The row that `issue` inserts; `none` where it throws before it begins. -/
def World.issueRow (w : World) (args : Issue) : Option Grant :=
  match w.allocations.rows args.allocationId with
  | none => none
  | some allocation =>
    match allocation.connections.find? (·.aliasName = args.aliasName) with
    | none => none
    | some binding =>
      if allocation.status = .active then
        some {
          allocationId := args.allocationId
          agentSessionId := args.agentSessionId
          aliasName := binding.aliasName
          channel := args.channel.getD .mcp
          connectionId := binding.connectionId
          tokenHash := hashBearer args.token
          capabilities := binding.capabilities
          expiresAt := w.now + min (args.ttlSeconds.getD 900) MAX_GRANT_TTL_SECONDS * 1000
          modelTurn := args.modelTurn
          revoked := false }
      else none

/-- How an operation begins. -/
def World.task (w : World) : Op → Option Task
  | .issue args => (w.issueRow hashBearer args).map fun row =>
    .shareAllocation row args.keepPrevious
  | .revokeOthers key keepId => some (.selectKeep key keepId)
  | .extend s channel ttlSeconds =>
    some (.quiet [.update (.extend s channel (w.now +
      min (ttlSeconds.getD MAX_GRANT_TTL_SECONDS) MAX_GRANT_TTL_SECONDS * 1000))])
  | .revokeSession s channel => some (.quiet [.update (.session s channel)])
  | .revokeAllocation a => some (.quiet [.update (.allocation a)])
  | .revokeConnection c => some (.quiet [.update (.connection c)])
  | .release a => some (.quiet [.release a true])
  | .parkRun a => some (.quiet [.release a true, .update (.allocation a)])
  | .retireAllocation a => some (.quiet [.release a false, .update (.allocation a)])
  | .releaseAllocation a => some (.quiet [.update (.allocation a), .release a true])

/-- `validate`: the row that a bearer names, from what is committed. -/
def World.validate (w : World) (token : Token) : Option (GrantId × Grant) :=
  (List.range w.next).findSome? fun id =>
    match w.grants.rows id with
    | some g =>
      if g.tokenHash = hashBearer token ∧ g.revoked = false ∧ w.now < g.expiresAt ∧
          w.active g.allocationId then some (id, g)
      else none
    | none => none

/-! ## Steps -/

inductive Action
  | tick (ms : Nat)
  /-- A new allocation is admitted. -/
  | admitted (a : AllocationId) (connections : List Binding)
  /-- A turn is claimed, settled, cancelled or taken over. -/
  | setTurn (i : TurnId) (row : Option Turn)
  | setSession (s : SessionId) (row : Option Session)
  | setAttempt (i : AttemptId) (row : Option Attempt)
  | begin (t : TxnId) (op : Op)
  | proceed (t : TxnId)
  /-- A statement fails, or the process stops. -/
  | fail (t : TxnId)
  deriving DecidableEq

def step (w : World) : Action → Option World
  | .tick ms => some { w with now := w.now + ms }
  | .admitted a connections =>
    if w.allocations.rows a = none ∧ w.allocations.held a = none then
      some { w with allocations := { w.allocations with
        rows := update w.allocations.rows a (some ⟨.active, connections⟩) } }
    else none
  | .setTurn i row =>
    if w.turnShares i = [] then some { w with turns := update w.turns i row } else none
  | .setSession s row => some { w with sessions := update w.sessions s row }
  | .setAttempt i row => some { w with attempts := update w.attempts i row }
  | .begin t op =>
    match w.tasks t with
    | none => (w.task hashBearer op).map fun task => w.setTask t task
    | some _ => none
  | .proceed t => (w.tasks t).bind fun task => w.proceed t task
  | .fail t => (w.tasks t).map fun _ => w.rollback t

end Operations

/-! ## The lives of grants -/

/-- **What validation keeps to**, from an earlier state on. -/
structure Ends (hashBearer : Token → Hash) (w w' : World) : Prop where
  /-- A bearer validates only as a grant that is not revoked, of an active allocation. -/
  validates : ∀ token id g, w'.validate hashBearer token = some (id, g) →
    w'.grants.rows id = some g ∧ g.revoked = false ∧
      ∃ row, w'.allocations.rows g.allocationId = some row ∧ row.status = .active
  /-- What was revoked never validates again, extended or not. -/
  revoked : ∀ id g, w.grants.rows id = some g → g.revoked = true →
    ∀ token g', w'.validate hashBearer token ≠ some (id, g')
  /-- What belongs to an allocation that was released never validates, whenever it was issued. -/
  released : ∀ a row, w.allocations.rows a = some row → row.status = .released →
    ∀ token id g, w'.validate hashBearer token = some (id, g) → g.allocationId ≠ a
  /-- No grant lives longer than the longest lifetime from now. -/
  bounded : ∀ id g, w'.grants.rows id = some g →
    g.expiresAt ≤ w'.now + MAX_GRANT_TTL_SECONDS * 1000

/-- A grant was issued with `keepPrevious`, and nothing closed what that left open. -/
def World.Open (w : World) (id : GrantId) : Prop :=
  .opened id ∈ w.notes ∧ .closed id ∉ w.notes ∧ .lapsed id ∉ w.notes

/-- **One live grant**: an older grant lives beside a newer one of its session, alias and channel
only while the newer one's `keepPrevious` window is open, where it belongs to a model turn and the
newer one does not, or where the newer one's turn was no longer live when the window closed. -/
def World.OneLive (w : World) : Prop :=
  ∀ id id' g g', id < id' → w.grants.rows id = some g → w.grants.rows id' = some g' →
    g.revoked = false → g'.revoked = false → g.key.isSome → g.key = g'.key →
      w.Open id' ∨ (g.modelTurn.isSome ∧ g'.modelTurn = none) ∨
        (g'.modelTurn.isSome ∧ .lapsed id' ∈ w.notes)

/-- Issues and `revokeOthers` of one session, alias and channel follow each other. -/
def Apart (w : World) : Action → Prop
  | .begin _ (.issue args) =>
    ∀ s, args.agentSessionId = some s →
      ∀ t task, w.tasks t = some task →
        task.key ≠ some ⟨s, args.aliasName, args.channel.getD .mcp⟩
  | .begin _ (.revokeOthers key _) =>
    ∀ t task, w.tasks t = some task → task.key ≠ some key
  | _ => True

end Catamorphic.Access.ConnectionGrants
