import Catamorphic.Lib.JsString
import Catamorphic.Sessions.Protocol
import Mathlib.Data.List.TakeWhile

/-!
# Projection rows to protocol entities

The rows of a session's projection tables, and the mappers that read an entity back from
its row. A row's columns are split as its writer splits them: the values every change
writes, and the rest, which the row gets when it is inserted.
-/

namespace Catamorphic.Sessions.Rows

open Protocol List

def iso (value : Option Date) : Option Stamp := value.map toISOString

/-- A timestamp column as the projector writes it. -/
def dateOf (stamp : Option Stamp) : Option Date := stamp.map Stamp.date

theorem iso_dateOf {stamp : Option Stamp} (h : ∀ s ∈ stamp, s.Iso) : iso (dateOf stamp) =
    stamp := by
  cases stamp with
  | none => rfl
  | some s => rw [dateOf, iso, Option.map_some, Option.map_some, (h s rfl).eq]

/-! ## Turns -/

/-- The columns every change of a turn writes. -/
structure TurnValues where
  status : TurnStatus
  inputItemId : Option Id
  dispatch : TurnDispatch
  priority : Int
  activity : Option String
  activityAt : Option Date
  providerRetry : Option Json
  attemptCount : Nat
  activeAttemptId : Option Id
  providerThreadId : Option Id
  error : Option Json
  outcome : Option Json
  checkpointBefore : Option Commit
  checkpointAfter : Option Commit
  continuationOf : Option Id
  startedAt : Option Date
  completedAt : Option Date
  updatedAt : Date

/-- A row of `agent_turns`. -/
structure TurnRow extends TurnValues where
  id : Id
  sessionId : Id
  ordinal : Nat
  createdAt : Date
  availableAt : Date
  cancellationRequestedAt : Option Date
  leaseOwner : Option String
  leaseToken : Option Nat
  leaseExpiresAt : Option Date

/-- A `character(40)` column: a shorter value is padded. -/
def character40 (value : Commit) : Commit := value ++ List.replicate (40 - value.length) ' '

theorem trim_append_spaces (value : Commit) (n : Nat) :
    Text.trim (value ++ List.replicate n ' ') = Text.trim value := by
  have hspaces : (List.replicate n ' ').dropWhile Text.isSpace = [] :=
    dropWhile_eq_nil_iff.mpr fun c hc => by
      rw [eq_of_mem_replicate hc]
      rfl
  unfold Text.trim
  rw [dropWhile_append]
  split
  · rename_i hempty
    rw [hspaces, List.isEmpty_iff.mp hempty]
  · rw [reverse_append, reverse_replicate, dropWhile_append, hspaces]
    rfl

theorem trim_character40 (value : Commit) : Text.trim (character40 value) = Text.trim value :=
  trim_append_spaces value _

/-- `Turn.retryAt`: when a queued retry that is not due yet becomes due. -/
def retryAt (now : Date) (row : TurnRow) : Option Stamp :=
  if row.status = .queued ∧ 0 < row.attemptCount ∧ now < row.availableAt then
    some (toISOString row.availableAt)
  else none

def turnFromRow (now : Date) (row : TurnRow) : Turn where
  id := row.id
  sessionId := row.sessionId
  ordinal := row.ordinal
  status := row.status
  inputItemId := row.inputItemId
  dispatch := row.dispatch
  priority := row.priority
  activity := row.activity
  activityAt := iso row.activityAt
  providerRetry := row.providerRetry
  attemptCount := row.attemptCount
  activeAttemptId := row.activeAttemptId
  providerThreadId := row.providerThreadId
  retryAt := retryAt now row
  cancellationRequested := row.cancellationRequestedAt.isSome
  error := row.error
  outcome := row.outcome
  checkpoint :=
    { before := row.checkpointBefore.map Text.trim, after := row.checkpointAfter.map Text.trim }
  continuationOf := row.continuationOf
  createdAt := toISOString row.createdAt
  startedAt := iso row.startedAt
  completedAt := iso row.completedAt
  updatedAt := toISOString row.updatedAt

/-! ## Attempts -/

structure AttemptValues where
  status : AttemptStatus
  providerThreadId : Option Id
  nativeTurnRef : Option Json
  error : Option Json
  startedAt : Option Date
  completedAt : Option Date

/-- A row of `agent_turn_attempts`, the engine's own columns apart. -/
structure AttemptRow extends AttemptValues where
  id : Id
  turnId : Id
  sessionId : Id
  ordinal : Nat
  reason : AttemptReason
  createdAt : Date

def attemptFromRow (row : AttemptRow) : Attempt where
  id := row.id
  turnId := row.turnId
  sessionId := row.sessionId
  ordinal := row.ordinal
  reason := row.reason
  status := row.status
  providerThreadId := row.providerThreadId
  nativeTurnRef := row.nativeTurnRef
  error := row.error
  createdAt := toISOString row.createdAt
  startedAt := iso row.startedAt
  completedAt := iso row.completedAt

/-! ## Items -/

/--
An item's `payload` column: the item's JSON object. `jsonb_set` adds a member that is not
there, so an object may also hold a streamed field its kind does not have.
-/
structure ItemPayload where
  item : Item
  strayText : Option String
  strayOutput : Option String

/-- `json(item)`. -/
def ItemPayload.ofItem (item : Item) : ItemPayload := ⟨item, none, none⟩

structure ItemValues where
  turnId : Option Id
  attemptId : Option Id
  parentItemId : Option Id
  kind : ItemKind
  status : ItemStatus
  /-- What search reads. -/
  text : String
  authorKind : Option AuthorKind
  authorPayload : Option Author
  dispatch : Option DispatchMode
  attention : Bool
  idempotencyKey : Option String
  payload : ItemPayload
  updatedAt : Date

/-- A row of `agent_items`. -/
structure ItemRow extends ItemValues where
  id : Id
  sessionId : Id
  position : Nat
  createdAt : Date

/-- An item row holds the whole protocol item in `payload`. -/
def itemFromRow (row : ItemRow) : ItemPayload := row.payload

/-! ## Runtime requests -/

structure RequestValues where
  turnId : Option Id
  attemptId : Option Id
  itemId : Option Id
  kind : RuntimeRequestKind
  payload : RuntimeRequest
  status : RuntimeRequestStatus
  answerable : Bool
  blocking : Bool
  expiresAt : Option Date
  response : Option Json
  resolvedByExternalUserId : Option String
  resolvedAt : Option Date
  reason : Option String
  updatedAt : Date

/-- A row of `agent_runtime_requests`. -/
structure RequestRow extends RequestValues where
  sessionId : Id
  requestId : Id
  createdAt : Date
  revision : Nat

def requestFromRow (row : RequestRow) : RuntimeRequest :=
  { row.payload with
    id := row.requestId
    sessionId := row.sessionId
    turnId := row.turnId
    attemptId := row.attemptId
    itemId := row.itemId
    status := row.status
    answerable := row.answerable && row.status = .pending
    blocking := row.blocking
    expiresAt := iso row.expiresAt
    response := row.response
    resolvedBy := row.resolvedByExternalUserId
    reason := row.reason
    createdAt := toISOString row.createdAt
    resolvedAt := iso row.resolvedAt }

/-! ## Provider threads -/

structure ThreadValues where
  harness : String
  nativeRef : Option Json
  status : ThreadStatus
  lastTurnOrdinal : Option Nat
  portable : Bool
  updatedAt : Date

/-- A row of `agent_provider_threads`, the engine's own columns apart. -/
structure ProviderThreadRow extends ThreadValues where
  id : Id
  sessionId : Id
  createdAt : Date

def providerThreadFromRow (row : ProviderThreadRow) : ProviderThread where
  id := row.id
  sessionId := row.sessionId
  harness := row.harness
  nativeRef := row.nativeRef
  status := row.status
  lastTurnOrdinal := row.lastTurnOrdinal
  portable := row.portable
  createdAt := toISOString row.createdAt
  updatedAt := toISOString row.updatedAt

end Catamorphic.Sessions.Rows
