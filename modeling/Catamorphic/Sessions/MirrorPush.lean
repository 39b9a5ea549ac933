import Catamorphic.Lib.Runs
import Catamorphic.Sessions.Mirror

/-!
# Mirror pushes

The host that holds a session's authority pushes its log to a copy. A push is written in one
transaction: it is refused where the copy is another person's or was continued here, a copy
that logged nothing starts from the push's base, and the push's events continue the copy's
log. `mirror_sequence` records how far the source's log was mirrored; a copy that logged
events past it diverged. The copy itself may be created here, append events of its own and
change hands at any moment between two pushes.
-/

namespace Catamorphic.Sessions.Mirror

open Protocol Rows Log Runs

/-- What a push checks and sets of a copy's `agent_sessions` row; `event_sequence` is the log's. -/
structure CopyRow where
  projectId : Id
  externalUserId : Id
  authorityHostId : String
  authorityRevision : Nat
  mirrorSequence : Nat
  deriving DecidableEq

structure Identity where
  projectId : Id
  externalUserId : Id
  deriving DecidableEq

structure Authority where
  hostId : String
  revision : Nat

/-- What is checked of a workflow-facing event: its kind and the session its payload names. -/
structure ProjectEvent where
  kind : String
  sessionId : Option Id

/-- `SessionMirrorInput`, as far as the copy's log depends on it. -/
structure MirrorInput where
  authority : Authority
  /-- Every turn, item, request and thread at `base.sequence`, for a new copy. -/
  base : Option SessionSnapshot
  events : List StoredSessionEvent
  projectEvents : List ProjectEvent

inductive MirrorError
  | accessDenied
  /-- `SessionMirrorDivergedError`. -/
  | diverged
  /-- `SessionMirrorBehindError`. -/
  | behind (sequence : Nat)
  /-- A new mirror needs an admitted Environment. -/
  | unadmitted
  /-- `assertSessionMetadata` of the base. -/
  | metadata
  /-- A write of the log threw. -/
  | log (error : LogError)
  /-- Session has a log of its own; a snapshot cannot replace it. -/
  | logged
  deriving DecidableEq

def CopyRow.isOf (row : CopyRow) (identity : Identity) : Prop :=
  row.projectId = identity.projectId ∧ row.externalUserId = identity.externalUserId

instance (row : CopyRow) (identity : Identity) : Decidable (row.isOf identity) :=
  inferInstanceAs (Decidable (_ ∧ _))

/-- The row names the pushing host, at no later revision, or no host. -/
def CopyRow.heldBy (row : CopyRow) (authority : Authority) : Prop :=
  row.authorityHostId = "unassigned" ∨
    (row.authorityHostId = authority.hostId ∧ row.authorityRevision ≤ authority.revision)

instance (row : CopyRow) (authority : Authority) : Decidable (row.heldBy authority) :=
  inferInstanceAs (Decidable (_ ∨ _))

/-- The source's native threads live on its machine. -/
def away (thread : ProviderThread) : ProviderThread := { thread with status := .unavailable }

def awayEvent (stored : StoredSessionEvent) : StoredSessionEvent :=
  match stored.event with
  | .providerThreadChanged thread => { stored with event := .providerThreadChanged (away thread) }
  | _ => stored

/--
A mirror that logged nothing holds only a base, or the history it had before the log. Its
source's base replaces it whole; a copy with a log of its own never is.
-/
def unlogged (db : Db) (sessionId : Id) (row : CopyRow) : Bool :=
  0 < row.mirrorSequence && !hasLogged db sessionId

/-- The checks of a push that come before anything is written. -/
def refusal (identity : Identity) (db : Db) (sessionId : Id) (input : MirrorInput) :
    Option CopyRow → Option MirrorError
  | none => if input.base.isNone then some (.behind 0) else none
  | some row =>
    if ¬row.isOf identity then some .accessDenied
    else if ¬row.heldBy input.authority then some .diverged
    -- This copy logged events of its own past what was mirrored to it.
    else if !unlogged db sessionId row ∧ 0 < row.mirrorSequence ∧
        (db.eventSequence sessionId).any (row.mirrorSequence < ·) then
      some .diverged
    else none

/-- The row of a new copy. -/
def insertCopy (identity : Identity) (input : MirrorInput) : CopyRow where
  projectId := identity.projectId
  externalUserId := identity.externalUserId
  authorityHostId := input.authority.hostId
  authorityRevision := input.authority.revision
  mirrorSequence := 0

/-- A session is inserted, at sequence 0. -/
def insertSession (store : Store) (sessionId : Id) : Store where
  db := { store.db with
    eventSequence := Function.update store.db.eventSequence sessionId (some 0) }
  sessions := sessionId :: store.sessions

/-- `input.base` becomes the copy's state, where the copy has none of its own. -/
def importBase (metadataOk : Json → Bool) (now clock : Date) (store : Store) (sessionId : Id)
    (current : Option CopyRow) (base : SessionSnapshot) : Except MirrorError Store :=
  let cleared := current.any (unlogged store.db sessionId)
  if current.isNone || store.db.eventSequence sessionId = some 0 || cleared then
    match if cleared then clearUnlogged store sessionId else some store with
    | none => .error .logged
    | some store =>
      match importSnapshot metadataOk now clock store sessionId
          { base with providerThreads := base.providerThreads.map away } with
      | .error error => .error (.log error)
      | .ok store => if metadataOk base.session.metadata then .ok store else .error .metadata
  else .ok store

/-- The push's row and log, with what the copy ends at. -/
def writeEvents (metadataOk : Json → Bool) (now : Date) (store : Store) (sessionId : Id)
    (row : CopyRow) (input : MirrorInput) : Except MirrorError (Store × CopyRow) :=
  match replicate metadataOk now store sessionId (input.events.map awayEvent) with
  | .error (.gap expected _) => .error (.behind (expected - 1))
  | .error error => .error (.log error)
  | .ok (store, sequence) =>
    if input.projectEvents.any fun event =>
        event.sessionId ≠ some sessionId || !event.kind.startsWith "session." then
      .error .accessDenied
    else
      .ok (store, { row with
        authorityHostId := input.authority.hostId
        authorityRevision := input.authority.revision
        mirrorSequence := sequence })

/--
`writeSessionMirror`: the tables and the row a push leaves. `admitted` says whether a new
copy was admitted to an Environment and got its allocation.
-/
def writeSessionMirror (metadataOk : Json → Bool) (now clock : Date) (identity : Identity)
    (admitted : Bool) (sessionId : Id) (input : MirrorInput) (store : Store)
    (current : Option CopyRow) : Except MirrorError (Store × CopyRow) :=
  match refusal identity store.db sessionId input current with
  | some error => .error error
  | none =>
    if current.isNone && !admitted then .error .unadmitted
    else
      let inserted := if current.isNone then insertSession store sessionId else store
      let row := current.getD (insertCopy identity input)
      match input.base with
      | none => writeEvents metadataOk now inserted sessionId row input
      | some base =>
        match importBase metadataOk now clock inserted sessionId current base with
        | .error error => .error error
        | .ok based => writeEvents metadataOk now based sessionId row input

end Catamorphic.Sessions.Mirror
