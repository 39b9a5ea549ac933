import Catamorphic.Sessions.Log

/-!
# Copies of a session

A session may have copies on other servers. The one that holds its authority pushes its log:
a copy starts from a snapshot, and later pushes continue the copy's log with the source's
events under the source's numbers. What another copy sent is checked before anything of it is
projected, and a copy that logged events of its own refuses to be continued.
-/

namespace Catamorphic.Sessions.Mirror

open Protocol Rows Log Function List

/-- The log's tables with the sessions there are. -/
structure Store where
  db : Db
  sessions : List Id

/-! ## What another copy sent -/

/-- `COPIED_SESSION_FIELDS`: a session change keeps only presentation fields. -/
def copiedFields (fields : PartialFields) : PartialFields where
  id := none
  projectId := none
  title := fields.title
  icon := fields.icon
  agentId := none
  harness := none
  model := none
  modelEffort := none
  status := none
  workStatus := fields.workStatus
  activity := fields.activity
  todos := fields.todos
  metadata := fields.metadata
  imported := none
  parentSessionId := none
  forkedFromSessionId := none
  attentionRevision := none
  environment := none
  authorityHostId := none
  authorityRevision := none
  handoffStatus := none
  updatedAt := fields.updatedAt

def copiedEvent : SessionEvent → SessionEvent
  | .sessionChanged fields => .sessionChanged (copiedFields fields)
  | event => event

/-- The record an event carries is the session's; metadata keeps a write's limits. -/
def isOwn (metadataOk : Json → Bool) (sessionId : Id) : SessionEvent → Bool
  | .sessionChanged fields => fields.metadata.all metadataOk
  | .turnChanged turn => turn.sessionId = sessionId
  | .attemptChanged attempt => attempt.sessionId = sessionId
  | .itemAdded item | .itemChanged item => item.sessionId = sessionId
  | .itemTextAppended .. => true
  | .requestChanged request => request.sessionId = sessionId
  | .providerThreadChanged thread => thread.sessionId = sessionId

/-- The turns an event is of or refers to. -/
def turnIds : SessionEvent → List Id
  | .turnChanged turn => [turn.id]
  | .attemptChanged attempt => [attempt.turnId]
  | .itemAdded item | .itemChanged item => item.turnId.toList
  | .requestChanged request => request.turnId.toList
  | _ => []

def attemptIds : SessionEvent → List Id
  | .attemptChanged attempt => [attempt.id]
  | .requestChanged request => request.attemptId.toList
  | _ => []

def itemIds : SessionEvent → List Id
  | .itemAdded item | .itemChanged item => [item.id]
  | .itemTextAppended itemId _ _ _ => [itemId]
  | .requestChanged request => request.itemId.toList
  | _ => []

def requestIds : SessionEvent → List Id
  | .requestChanged request => [request.id]
  | _ => []

def threadIds : SessionEvent → List Id
  | .providerThreadChanged thread => [thread.id]
  | _ => []

/-- A record the events name is another session's. -/
def elsewhere (store : Store) (sessionId : Id) (events : List SessionEvent) : Bool :=
  (events.flatMap turnIds).any (fun id =>
    (store.db.turns id).any fun row => row.sessionId ≠ sessionId) ||
  (events.flatMap attemptIds).any (fun id =>
    (store.db.attempts id).any fun row => row.sessionId ≠ sessionId) ||
  (events.flatMap itemIds).any (fun id =>
    (store.db.items id).any fun row => row.sessionId ≠ sessionId) ||
  (events.flatMap threadIds).any (fun id =>
    (store.db.providerThreads id).any fun row => row.sessionId ≠ sessionId) ||
  (events.flatMap requestIds).any fun id =>
    store.sessions.any fun other => other ≠ sessionId && (store.db.requests other id).isSome

/-- `ownEvents`: nothing of them, where one is foreign. -/
def ownEvents (metadataOk : Json → Bool) (store : Store) (sessionId : Id)
    (events : List SessionEvent) : Option (List SessionEvent) :=
  if events.all (isOwn metadataOk sessionId) && !elsewhere store sessionId events then
    some (events.map copiedEvent)
  else none

/-! ## Writing another copy's events -/

inductive LogError
  /-- No such session. -/
  | missing
  | gap (expected got : Nat)
  | foreign
  deriving DecidableEq

/-- The first event that does not continue a log at `sequence`. -/
def firstGap : Nat → List StoredSessionEvent → Option (Nat × Nat)
  | _, [] => none
  | sequence, stored :: events =>
    if stored.sequence = sequence + 1 then firstGap stored.sequence events
    else some (sequence + 1, stored.sequence)

/-- Apply events another copy committed, keeping their sequences. -/
def replicate (metadataOk : Json → Bool) (now : Date) (store : Store) (sessionId : Id)
    (events : List StoredSessionEvent) : Except LogError (Store × Nat) :=
  match store.db.eventSequence sessionId with
  | none => .error .missing
  | some sequence =>
    let fresh := events.filter (sequence < ·.sequence)
    match firstGap sequence fresh with
    | some (expected, got) => .error (.gap expected got)
    | none =>
      if fresh.isEmpty then .ok (store, sequence)
      else
        match ownEvents metadataOk store sessionId (fresh.map StoredSessionEvent.event) with
        | none => .error .foreign
        | some own =>
          let stored := fresh.zipWith
            (fun stored event => { stored with sessionId := sessionId, event := event }) own
          .ok ({ store with db := stored.foldl (persist now) store.db },
            sequence + fresh.length)

/-- The entities of a snapshot, as they stand. -/
def snapshotEvents (snapshot : SessionSnapshot) : List SessionEvent :=
  snapshot.providerThreads.map .providerThreadChanged ++ snapshot.items.map .itemAdded ++
    snapshot.turns.map .turnChanged ++ snapshot.attempts.map .attemptChanged ++
    snapshot.requests.map .requestChanged

/-- Start a copy from another copy's snapshot: the log continues from its sequence. -/
def importSnapshot (metadataOk : Json → Bool) (now clock : Date) (store : Store) (sessionId : Id)
    (snapshot : SessionSnapshot) : Except LogError Store :=
  match store.db.eventSequence sessionId with
  | none => .error .missing
  | some sequence =>
    match ownEvents metadataOk store sessionId (snapshotEvents snapshot) with
    | none => .error .foreign
    | some own =>
      let db := (own.map fun event =>
        ⟨sessionId, snapshot.sequence, toISOString clock, none, event⟩).foldl (project now)
          store.db
      -- Never behind what the session already logged.
      .ok { store with
        db := { db with
          eventSequence := update db.eventSequence sessionId
            (some (max sequence snapshot.sequence)) } }

/-- Whether this copy of a session logged any event. -/
def hasLogged (db : Db) (sessionId : Id) : Bool := !(eventsOf db sessionId).isEmpty

/-- Empty a copy that logged nothing; one with a log of its own is refused. -/
def clearUnlogged (store : Store) (sessionId : Id) : Option Store :=
  if hasLogged store.db sessionId then none
  else
    let db := store.db
    some { store with
      db :=
        { db with
          requests := update db.requests sessionId fun _ => none
          turns := fun id => (db.turns id).filter fun row => row.sessionId ≠ sessionId
          -- Attempts go with their turns.
          attempts := fun id => (db.attempts id).filter fun row =>
            !(db.turns row.turnId).any fun turn => turn.sessionId = sessionId
          items := fun id => (db.items id).filter fun row => row.sessionId ≠ sessionId
          providerThreads := fun id =>
            (db.providerThreads id).filter fun row => row.sessionId ≠ sessionId
          eventSequence := update db.eventSequence sessionId
            ((db.eventSequence sessionId).map fun _ => 0) } }

variable {metadataOk : Json → Bool} {sessionId : Id}

/-! ## What the checks and the import say -/

theorem ownEvents_some {store : Store} {events own : List SessionEvent}
    (h : ownEvents metadataOk store sessionId events = some own) :
    events.map copiedEvent = own := by
  unfold ownEvents at h
  split at h
  · exact Option.some.inj h
  · cases h

/-- An import moves the session on to the snapshot's sequence and logs nothing. -/
theorem importSnapshot_log {now clock : Date} {store store' : Store} {snapshot : SessionSnapshot}
    (h : importSnapshot metadataOk now clock store sessionId snapshot = .ok store') :
    ∃ n, store.db.eventSequence sessionId = some n ∧
      store'.db.eventSequence = update store.db.eventSequence sessionId
        (some (max n snapshot.sequence)) ∧ store'.db.events = store.db.events := by
  unfold importSnapshot at h
  split at h
  · cases h
  · rename_i n hsequence
    split at h
    · cases h
    · rename_i own _
      cases h
      obtain ⟨hsequence', hevents⟩ := projects_log now (own.map fun event =>
        (⟨sessionId, snapshot.sequence, toISOString clock, none, event⟩ : StoredSessionEvent))
          store.db
      exact ⟨n, hsequence, by rw [hsequence'], hevents⟩

/-- An event of another copy as this one stores it. -/
def copiedStored (sessionId : Id) (stored : StoredSessionEvent) : StoredSessionEvent :=
  { stored with sessionId := sessionId, event := copiedEvent stored.event }

variable {events : List StoredSessionEvent} {sequence : Nat}

theorem firstGap_none (h : firstGap sequence events = none) :
    events.map StoredSessionEvent.sequence = List.range' (sequence + 1) events.length := by
  induction events generalizing sequence with
  | nil => rfl
  | cons stored events ih =>
    rw [firstGap] at h
    split at h
    · rename_i hnext
      rw [map_cons, length_cons, range'_succ, ih h, hnext]
    · cases h

/-- **What was replicated continues the log**: the events after its sequence, without a gap. -/
theorem replicate_log {now : Date} {store store' : Store}
    (h : replicate metadataOk now store sessionId events = .ok (store', sequence)) :
    ∃ n, store.db.eventSequence sessionId = some n ∧
      (events.filter (n < ·.sequence)).map StoredSessionEvent.sequence =
        List.range' (n + 1) (events.filter (n < ·.sequence)).length ∧
      sequence = n + (events.filter (n < ·.sequence)).length ∧
      store' = { store with
        db := ((events.filter (n < ·.sequence)).map (copiedStored sessionId)).foldl (persist now)
          store.db } := by
  unfold replicate at h
  split at h
  · cases h
  · rename_i n hsequence
    dsimp only at h
    split at h
    · cases h
    · rename_i hgap
      have hnumbered := firstGap_none hgap
      split at h
      · rename_i hempty
        cases h
        rw [List.isEmpty_iff] at hempty
        exact ⟨_, hsequence, hnumbered, by rw [hempty]; rfl, by rw [hempty]; rfl⟩
      · split at h
        · cases h
        · rename_i own hown
          cases h
          refine ⟨n, hsequence, hnumbered, rfl, ?_⟩
          obtain rfl := ownEvents_some hown
          rw [map_map, zipWith_map_right, zipWith_self]
          rfl

end Catamorphic.Sessions.Mirror
