import Catamorphic.Lib.Runs
import Catamorphic.Sessions.Log
import Catamorphic.Sessions.State

/-!
# The log folds into the projections

A session is held twice: as the events of its log, which every client folds with its
reducer, and as the rows the projector wrote, which the server reads back. The two are
written independently of each other. This module compares them entity by entity, over
every run of batches.
-/

namespace Catamorphic.Sessions.LogFold

open Protocol Rows Log State Table List Option Function

/-! ## What is compared -/

/-- What the server reads of a session's turns, `retryAt` as of `now`. -/
def readTurn (now : Date) (db : Db) (sessionId id : Id) : Option Turn :=
  (own db.turns TurnRow.sessionId sessionId id).map (turnFromRow now)

def readAttempt (db : Db) (sessionId id : Id) : Option Attempt :=
  (own db.attempts AttemptRow.sessionId sessionId id).map attemptFromRow

def readItem (db : Db) (sessionId id : Id) : Option ItemPayload :=
  (own db.items ItemRow.sessionId sessionId id).map itemFromRow

def readRequest (db : Db) (sessionId id : Id) : Option RuntimeRequest :=
  (db.requests sessionId id).map requestFromRow

def readProviderThread (db : Db) (sessionId id : Id) : Option ProviderThread :=
  (own db.providerThreads ProviderThreadRow.sessionId sessionId id).map providerThreadFromRow

/-- What a client makes of a session's log. Its entities do not depend on the fields. -/
def fold (db : Db) (sessionId : Id) : SessionState :=
  applySessionEvents (.empty (.created sessionId 0 (toISOString 0))) (eventsOf db sessionId)

/-- A turn, when it is due again apart: that depends on the clock. -/
def withoutRetry (turn : Turn) : Turn := { turn with retryAt := none }

/-- The log folds into exactly what the projection of a session holds. -/
structure Agrees (db : Db) (sessionId : Id) (state : SessionState) : Prop where
  turns : ∀ now id,
    (state.turns id).map withoutRetry = (readTurn now db sessionId id).map withoutRetry
  attempts : ∀ id, state.attempts id = readAttempt db sessionId id
  items : ∀ id, (itemById state.items id).map ItemPayload.ofItem = readItem db sessionId id
  requests : ∀ id, state.requests id = readRequest db sessionId id
  providerThreads : ∀ id, state.providerThreads id = readProviderThread db sessionId id

/-! ## What is asked of the events -/

/-- What a turn is created with. -/
structure TurnBirth where
  id : Id
  sessionId : Id
  ordinal : Nat
  createdAt : Stamp

structure AttemptBirth where
  id : Id
  sessionId : Id
  turnId : Id
  ordinal : Nat
  reason : AttemptReason
  createdAt : Stamp

structure ThreadBirth where
  id : Id
  sessionId : Id
  createdAt : Stamp

/-- What every id is created with; no later event changes it. -/
structure Births where
  turn : Id → TurnBirth
  attempt : Id → AttemptBirth
  /-- The session of an item. -/
  item : Id → Id
  /-- When a session's request was created. -/
  request : Id → Id → Stamp
  providerThread : Id → ThreadBirth

def turnBirth (turn : Turn) : TurnBirth :=
  ⟨turn.id, turn.sessionId, turn.ordinal, turn.createdAt⟩

def attemptBirth (attempt : Attempt) : AttemptBirth :=
  ⟨attempt.id, attempt.sessionId, attempt.turnId, attempt.ordinal, attempt.reason,
    attempt.createdAt⟩

def threadBirth (thread : ProviderThread) : ThreadBirth :=
  ⟨thread.id, thread.sessionId, thread.createdAt⟩

/-- Every timestamp of a list as `toISOString` writes it. -/
def AllIso (stamps : List (Option Stamp)) : Prop := ∀ stamp ∈ stamps, ∀ s ∈ stamp, s.Iso

/-- A commit id without white space around it. -/
def Trimmed (commit : Option Commit) : Prop := ∀ c ∈ commit, Text.trim c = c

/-- An event of a session as its columns can hold it, under the ids' births. -/
def Formed (births : Births) (sessionId : Id) : SessionEvent → Prop
  | .sessionChanged _ | .itemTextAppended .. => True
  | .turnChanged turn =>
    births.turn turn.id = turnBirth turn ∧ turn.sessionId = sessionId ∧
      AllIso [turn.createdAt, turn.updatedAt, turn.activityAt, turn.startedAt, turn.completedAt] ∧
      Trimmed turn.checkpoint.before ∧ Trimmed turn.checkpoint.after
  | .attemptChanged attempt =>
    births.attempt attempt.id = attemptBirth attempt ∧ attempt.sessionId = sessionId ∧
      AllIso [attempt.createdAt, attempt.startedAt, attempt.completedAt]
  | .itemAdded item | .itemChanged item => births.item item.id = sessionId
  | .requestChanged request =>
    births.request sessionId request.id = request.createdAt ∧ request.sessionId = sessionId ∧
      AllIso [request.createdAt, request.expiresAt, request.resolvedAt] ∧
      (request.answerable → request.status = .pending)
  | .providerThreadChanged thread =>
    births.providerThread thread.id = threadBirth thread ∧ thread.sessionId = sessionId ∧
      AllIso [thread.createdAt, thread.updatedAt]

/-- The field an item of a kind streams. -/
def streams : ItemKind → Option StreamedField
  | .assistantMessage | .reasoning => some .text
  | .command => some .output
  | _ => none

/--
Where a turn's row carries no request to stop, no change of the turn that asks to stop is
followed in the batch by one at work that does not. `asked` are the turns whose last change
in the batch asked.
-/
def RequestsStand (stands : Id → Prop) : (asked : Id → Bool) → List SessionEvent → Prop
  | _, [] => True
  | asked, .turnChanged turn :: events =>
    (turn.status.active → turn.cancellationRequested = false → asked turn.id → stands turn.id) ∧
      RequestsStand stands (update asked turn.id turn.cancellationRequested) events
  | asked, _ :: events => RequestsStand stands asked events

/-- Text is appended to the field that an item's kind streams. `kinds` are the items so far. -/
def AppendsStream : (kinds : Id → Option ItemKind) → List SessionEvent → Prop
  | _, [] => True
  | kinds, .itemAdded item :: events | kinds, .itemChanged item :: events =>
    AppendsStream (update kinds item.id (some item.body.kind)) events
  | kinds, .itemTextAppended itemId field _ _ :: events =>
    (∀ kind ∈ kinds itemId, streams kind = some field) ∧ AppendsStream kinds events
  | kinds, _ :: events => AppendsStream kinds events

/-- A session's turn rows that a batch is brought up to date with: settled, or asked to stop. -/
def Stands (db : Db) (sessionId id : Id) : Prop :=
  ∃ row ∈ own db.turns TurnRow.sessionId sessionId id,
    row.status.settled ∨ row.cancellationRequestedAt.isSome

def kindOf (db : Db) (sessionId id : Id) : Option ItemKind :=
  (readItem db sessionId id).map (·.item.body.kind)

/-- What a batch meets for the log to fold into the projections. -/
structure Sound (births : Births) (db : Db) (input : Append) : Prop where
  formed : ∀ event ∈ input.events, Formed births input.sessionId event
  requests : RequestsStand (Stands db input.sessionId) (fun _ => false) input.events
  appends : AppendsStream (kindOf db input.sessionId) input.events

def SoundWrite (births : Births) (db : Db) : Write → Prop
  | .create _ => True
  | .append input => Sound births db input

/-! ## One row -/

variable {stamps : List (Option Stamp)} {stamp : Option Stamp}

theorem AllIso.head (h : AllIso (stamp :: stamps)) : iso (dateOf stamp) = stamp :=
  iso_dateOf (h stamp mem_cons_self)

theorem AllIso.tail (h : AllIso (stamp :: stamps)) : AllIso stamps :=
  (List.forall_mem_cons.mp h).2

/-- A timestamp that is always there. -/
theorem AllIso.some {stamp : Stamp}
    (h : AllIso (some stamp :: stamps)) : toISOString stamp.date = stamp :=
  (h _ mem_cons_self stamp rfl).eq

theorem Trimmed.read {commit : Option Commit} (h : Trimmed commit) :
    (commit.map character40).map Text.trim = commit := by
  cases commit with
  | none => rfl
  | some c =>
    rw [map_some, map_some, trim_character40, h c rfl]

def rowTurnBirth (row : TurnRow) : TurnBirth :=
  ⟨row.id, row.sessionId, row.ordinal, toISOString row.createdAt⟩

def rowAttemptBirth (row : AttemptRow) : AttemptBirth :=
  ⟨row.id, row.sessionId, row.turnId, row.ordinal, row.reason, toISOString row.createdAt⟩

def rowThreadBirth (row : ProviderThreadRow) : ThreadBirth :=
  ⟨row.id, row.sessionId, toISOString row.createdAt⟩

variable {thread : ProviderThread}

section Rows

variable {births : Births} {sessionId : Id} {at' : Stamp} {field : StreamedField}
  {attempt : Attempt}

/-- A turn row inserted reads back as the turn. -/
theorem read_insertTurn {turn : Turn} (h : Formed births sessionId (.turnChanged turn))
    (now now' : Date) :
    withoutRetry (turnFromRow now (insertTurn now' sessionId at' turn)) = withoutRetry turn := by
  obtain ⟨-, hsession, hiso, hbefore, hafter⟩ := h
  have hrequested : (if turn.cancellationRequested then some at'.date else none).isSome =
      turn.cancellationRequested := by
    cases turn.cancellationRequested <;> rfl
  simp only [withoutRetry, turnFromRow, insertTurn, turnValues, hiso.some, hiso.tail.some,
    hiso.tail.tail.head, hiso.tail.tail.tail.head, hiso.tail.tail.tail.tail.head, hbefore.read,
    hafter.read, hrequested, hsession]

/-- A turn row changed reads back as the turn, unless it withdraws a request that stands. -/
theorem read_updateTurn {turn : Turn} {row : TurnRow}
    (h : Formed births sessionId (.turnChanged turn))
    (hbirth : rowTurnBirth row = births.turn turn.id)
    (hstands : turn.status.active → turn.cancellationRequested = false →
      row.cancellationRequestedAt = none) (now : Date) :
    withoutRetry (turnFromRow now (updateTurn at' turn row)) = withoutRetry turn := by
  obtain ⟨hborn, -, hiso, hbefore, hafter⟩ := h
  rw [hborn, rowTurnBirth, turnBirth, TurnBirth.mk.injEq] at hbirth
  obtain ⟨hid, hsession, hordinal, hcreated⟩ := hbirth
  have hrequested : (updateTurn at' turn row).cancellationRequestedAt.isSome =
      turn.cancellationRequested := by
    unfold updateTurn
    cases hasked : turn.cancellationRequested with
    | true => rfl
    | false =>
      cases hactive : turn.status.active with
      | true => simp [hstands hactive hasked]
      | false => rfl
  simp only [withoutRetry, turnFromRow, hrequested]
  simp only [updateTurn, turnValues, hiso.tail.some, hiso.tail.tail.head,
    hiso.tail.tail.tail.head, hiso.tail.tail.tail.tail.head, hbefore.read, hafter.read, hid,
    hsession, hordinal, hcreated]

theorem read_insertAttempt (h : Formed births sessionId (.attemptChanged attempt)) :
    attemptFromRow (insertAttempt sessionId attempt) = attempt := by
  obtain ⟨-, hsession, hiso⟩ := h
  simp only [attemptFromRow, insertAttempt, attemptValues, hiso.some, hiso.tail.head,
    hiso.tail.tail.head, ← hsession]

theorem read_updateAttempt {row : AttemptRow}
    (h : Formed births sessionId (.attemptChanged attempt))
    (hbirth : rowAttemptBirth row = births.attempt attempt.id) :
    attemptFromRow { row with toAttemptValues := attemptValues attempt } = attempt := by
  obtain ⟨hborn, -, hiso⟩ := h
  rw [hborn, rowAttemptBirth, attemptBirth, AttemptBirth.mk.injEq] at hbirth
  obtain ⟨hid, hsession, hturn, hordinal, hreason, hcreated⟩ := hbirth
  simp only [attemptFromRow, attemptValues, hiso.tail.head, hiso.tail.tail.head, hid, hsession,
    hturn, hordinal, hreason, hcreated]

theorem read_insertThread (h : Formed births sessionId (.providerThreadChanged thread)) :
    providerThreadFromRow (insertThread sessionId thread) = thread := by
  obtain ⟨-, hsession, hiso⟩ := h
  simp only [providerThreadFromRow, insertThread, threadValues, hiso.some, hiso.tail.some,
    ← hsession]

theorem read_updateThread {row : ProviderThreadRow}
    (h : Formed births sessionId (.providerThreadChanged thread))
    (hbirth : rowThreadBirth row = births.providerThread thread.id) :
    providerThreadFromRow { row with toThreadValues := threadValues thread } = thread := by
  obtain ⟨hborn, -, hiso⟩ := h
  rw [hborn, rowThreadBirth, threadBirth, ThreadBirth.mk.injEq] at hbirth
  obtain ⟨hid, hsession, hcreated⟩ := hbirth
  simp only [providerThreadFromRow, threadValues, hiso.tail.some, hid, hsession, hcreated]

/-- A request row reads back as the request its values were written from. -/
theorem read_request {request : RuntimeRequest} {row : RequestRow}
    (h : Formed births sessionId (.requestChanged request))
    (hvalues : ∃ at', row.toRequestValues = requestValues at' request)
    (hid : row.requestId = request.id) (hsession : row.sessionId = sessionId)
    (hcreated : toISOString row.createdAt = request.createdAt) : requestFromRow row = request := by
  obtain ⟨-, hof, hiso, hanswerable⟩ := h
  obtain ⟨at', hvalues⟩ := hvalues
  have hasked : (request.answerable && decide (request.status = .pending)) =
      request.answerable := by
    cases hans : request.answerable with
    | false => rfl
    | true => simpa using hanswerable hans
  simp only [requestFromRow, hvalues, requestValues, hid, hsession, hcreated, hiso.tail.head,
    hiso.tail.tail.head, hasked, ← hof]

/-! Items are their payload, so only the appends differ: `jsonb_set` writes any field. -/

theorem setStreamed_kind {f : String → String} {body body' : ItemBody}
    (h : setStreamed f field body = some body') : body'.kind = body.kind := by
  cases field <;> cases body <;> cases h <;> rfl

/-- **Where the kind streams the field, the reducer and `jsonb_set` append alike.** -/
theorem appendPayload_ofItem {item : Item}
    (h : streams item.body.kind = some field) (text : String) :
    appendPayload field text at' (.ofItem item) =
      .ofItem (State.appendText item field text at') := by
  obtain ⟨_, _, _, _, _, _, _, _, _, _, _, _, body⟩ := item
  cases field <;> cases body <;> first | rfl | cases h

theorem appendPayload_kind (payload : ItemPayload) (field : StreamedField) (text : String) :
    (appendPayload field text at' payload).item.body.kind = payload.item.body.kind := by
  unfold appendPayload
  cases hbody : setStreamed (· ++ text) field payload.item.body with
  | some body => exact setStreamed_kind hbody
  | none => cases field <;> rfl

end Rows

/-! ## One event -/

/-- Rows are as their ids were born, and an item's payload names the place of its row. -/
structure Born (births : Births) (db : Db) : Prop where
  turns : Each (fun id row => rowTurnBirth row = births.turn id) db.turns
  attempts : Each (fun id row => rowAttemptBirth row = births.attempt id) db.attempts
  items : Each (fun id row =>
    row.sessionId = births.item id ∧ row.payload.item.position = row.position) db.items
  requests : ∀ sessionId, Each (fun id row => row.sessionId = sessionId ∧ row.requestId = id ∧
    toISOString row.createdAt = births.request sessionId id) (db.requests sessionId)
  providerThreads :
    Each (fun id row => rowThreadBirth row = births.providerThread id) db.providerThreads

/-- What an event meets in the state it is projected in. -/
def Fits (db : Db) (sessionId : Id) : SessionEvent → Prop
  | .turnChanged turn =>
    turn.status.active → turn.cancellationRequested = false →
      ∀ row ∈ own db.turns TurnRow.sessionId sessionId turn.id, row.cancellationRequestedAt = none
  | .itemTextAppended itemId field _ _ =>
    ∀ kind ∈ kindOf db sessionId itemId, streams kind = some field
  | _ => True

section Event

variable {births : Births} {db : Db} {sessionId : Id} {state : SessionState}

theorem appendPayload_position (payload : ItemPayload) (field : StreamedField) (text : String)
    (at' : Stamp) : (appendPayload field text at' payload).item.position =
      payload.item.position := by
  unfold appendPayload
  cases setStreamed (· ++ text) field payload.item.body <;> cases field <;> rfl

/-- **Projecting an event keeps every id as it was born.** -/
theorem Born.project {stored : StoredSessionEvent} (h : Born births db)
    (hformed : Formed births stored.sessionId stored.event) (now : Date) :
    Born births (project now db stored) := by
  obtain ⟨sessionId, sequence, at', commandId, event⟩ := stored
  cases event with
  | sessionChanged session => exact h
  | turnChanged turn =>
    obtain ⟨hborn, hsession, hiso, -, -⟩ := hformed
    refine { h with turns := h.turns.upsert ?_ fun row hrow => hrow }
    rw [hborn, rowTurnBirth, turnBirth, ← hiso.some, hsession]
    rfl
  | attemptChanged attempt =>
    obtain ⟨hborn, hsession, hiso⟩ := hformed
    refine { h with attempts := h.attempts.upsert ?_ fun row hrow => hrow }
    rw [hborn, rowAttemptBirth, attemptBirth, ← hiso.some, hsession]
    rfl
  | itemAdded item | itemChanged item =>
    exact { h with items := h.items.upsert ⟨hformed.symm, rfl⟩ fun row hrow => ⟨hrow.1, rfl⟩ }
  | itemTextAppended itemId field text at' =>
    refine { h with items := h.items.change fun row hrow => ⟨hrow.1, ?_⟩ }
    exact (appendPayload_position row.payload field text at').trans hrow.2
  | requestChanged request =>
    obtain ⟨hborn, -, hiso, -⟩ := hformed
    refine { h with requests := fun session => ?_ }
    by_cases hsession : session = sessionId
    · subst hsession
      simp only [Log.project, update_self]
      exact (h.requests session).upsert ⟨rfl, rfl, hiso.some.trans hborn.symm⟩
        fun row hrow => hrow
    · simp only [Log.project, update_of_ne hsession]
      exact h.requests session
  | providerThreadChanged thread =>
    obtain ⟨hborn, hsession, hiso⟩ := hformed
    refine { h with providerThreads := h.providerThreads.upsert ?_ fun row hrow => hrow }
    rw [hborn, rowThreadBirth, threadBirth, ← hiso.some, hsession]
    rfl

/-- **An event of another session changes nothing of what is read.** -/
theorem Agrees.project_other {stored : StoredSessionEvent} (h : Agrees db sessionId state)
    (hne : sessionId ≠ stored.sessionId) (now : Date) :
    Agrees (project now db stored) sessionId state := by
  obtain ⟨session, sequence, at', commandId, event⟩ := stored
  cases event with
  | sessionChanged fields => exact h
  | turnChanged turn =>
    refine { h with turns := fun now' id => (h.turns now' id).trans ?_ }
    simp only [readTurn, Log.project]
    rw [own_upsert_other hne]
    · rfl
    · exact fun _ => rfl
  | attemptChanged attempt =>
    refine { h with attempts := fun id => (h.attempts id).trans ?_ }
    simp only [readAttempt, Log.project]
    rw [own_upsert_other hne]
    · rfl
    · exact fun _ => rfl
  | itemAdded item | itemChanged item =>
    refine { h with items := fun id => (h.items id).trans ?_ }
    simp only [readItem, Log.project]
    rw [own_upsert_other hne]
    · rfl
    · exact fun _ => rfl
  | itemTextAppended itemId field text at' =>
    refine { h with items := fun id => (h.items id).trans ?_ }
    simp only [readItem, Log.project]
    rw [own_change_other hne]
    exact fun _ => rfl
  | requestChanged request =>
    refine { h with requests := fun id => (h.requests id).trans ?_ }
    simp only [readRequest, Log.project, update_of_ne hne]
  | providerThreadChanged thread =>
    refine { h with providerThreads := fun id => (h.providerThreads id).trans ?_ }
    simp only [readProviderThread, Log.project]
    rw [own_upsert_other hne]
    · rfl
    · exact fun _ => rfl

/-- The item a session holds, as the client has it. -/
theorem Agrees.own_item (h : Agrees db sessionId state) (id : Id) :
    (own db.items ItemRow.sessionId sessionId id).map (·.payload) =
      (itemById state.items id).map ItemPayload.ofItem :=
  (h.items id).symm

/-- Both put an item under its id, at the place it was added. -/
theorem Agrees.upsertItem (h : Agrees db sessionId state) (hborn : Born births db) (item : Item)
    (hitem : births.item item.id = sessionId) (id : Id) :
    (itemById (upsertItem state.items item) id).map ItemPayload.ofItem =
      (own (upsert db.items ItemRow.sessionId item.id sessionId (insertItem sessionId item)
        (updateItem item)) ItemRow.sessionId sessionId id).map itemFromRow := by
  have hown : ∀ row ∈ db.items item.id, row.sessionId = sessionId :=
    fun row hrow => ((hborn.items item.id row hrow).1).trans hitem
  rw [itemById_upsertItem]
  by_cases hid : id = item.id
  · subst hid
    rw [if_pos rfl, own_upsert_self hown]
    · have hheld := h.own_item item.id
      rw [own_eq hown] at hheld ⊢
      cases hrow : db.items item.id with
      | none =>
        rw [hrow, map_none, eq_comm, map_eq_none_iff] at hheld
        rw [hheld]
        rfl
      | some row =>
        rw [hrow, map_some, eq_comm, map_eq_some_iff] at hheld
        obtain ⟨old, hold, hpayload⟩ := hheld
        -- The place of the row is the one its payload names, so the one the client keeps.
        have hplace : row.position = old.position := by
          rw [← (hborn.items item.id row hrow).2, ← hpayload]
          rfl
        simp only [hold, map_some, getD_some, itemFromRow, updateItem, hplace]
    · rfl
    · exact fun _ => rfl
  · rw [if_neg hid, own_upsert_of_ne hid]
    exact h.items id

/-- **Projecting an event is applying it**, where it fits the rows it changes. -/
theorem Agrees.project {stored : StoredSessionEvent} (h : Agrees db stored.sessionId state)
    (hborn : Born births db) (hformed : Formed births stored.sessionId stored.event)
    (hfits : Fits db stored.sessionId stored.event) (now : Date) :
    Agrees (project now db stored) stored.sessionId (applyOne state stored) := by
  obtain ⟨session, sequence, at', commandId, event⟩ := stored
  cases event with
  | sessionChanged fields => exact { h with }
  | turnChanged turn =>
    refine { h with turns := fun now' id => ?_ }
    simp only [readTurn, Log.project, applyOne]
    by_cases hid : id = turn.id
    · subst hid
      have hown : ∀ row ∈ db.turns turn.id, row.sessionId = session := fun row hrow =>
        (congrArg TurnBirth.sessionId ((hborn.turns turn.id row hrow).trans hformed.1)).trans
          hformed.2.1
      simp only [Fits, own_eq hown] at hfits
      rw [update_self, own_upsert_self hown, own_eq hown]
      · cases hrow : db.turns turn.id with
        | none =>
          simp only [map_none, getD_none, map_some]
          rw [read_insertTurn hformed]
        | some row =>
          simp only [map_some, getD_some]
          rw [read_updateTurn hformed (hborn.turns turn.id row hrow)
            fun hactive hasked => hfits hactive hasked row hrow]
      · rfl
      · exact fun _ => rfl
    · rw [update_of_ne hid, own_upsert_of_ne hid]
      exact h.turns now' id
  | attemptChanged attempt =>
    refine { h with attempts := fun id => ?_ }
    simp only [readAttempt, Log.project, applyOne]
    by_cases hid : id = attempt.id
    · subst hid
      have hown : ∀ row ∈ db.attempts attempt.id, row.sessionId = session := fun row hrow =>
        (congrArg AttemptBirth.sessionId
          ((hborn.attempts attempt.id row hrow).trans hformed.1)).trans hformed.2.1
      rw [update_self, own_upsert_self hown, own_eq hown]
      · cases hrow : db.attempts attempt.id with
        | none =>
          simp only [map_none, getD_none, map_some]
          rw [read_insertAttempt hformed]
        | some row =>
          simp only [map_some, getD_some]
          rw [read_updateAttempt hformed (hborn.attempts attempt.id row hrow)]
      · rfl
      · exact fun _ => rfl
    · rw [update_of_ne hid, own_upsert_of_ne hid]
      exact h.attempts id
  | itemAdded item | itemChanged item =>
    exact { h with items := h.upsertItem hborn item hformed }
  | itemTextAppended itemId field text at' =>
    refine { h with items := fun id => ?_ }
    simp only [readItem, Log.project, applyOne, itemById_appendItemText]
    by_cases hid : id = itemId
    · subst hid
      have hheld := h.own_item id
      rw [if_pos rfl, own_change_self]
      · cases hrow : own db.items ItemRow.sessionId session id with
        | none =>
          rw [hrow, map_none, eq_comm, map_eq_none_iff] at hheld
          rw [hheld]
          rfl
        | some row =>
          rw [hrow, map_some, eq_comm, map_eq_some_iff] at hheld
          obtain ⟨item, hitem, hpayload⟩ := hheld
          have hstreams : streams item.body.kind = some field := by
            refine hfits _ ?_
            rw [kindOf, readItem, hrow, map_some, map_some, itemFromRow, ← hpayload]
            rfl
          rw [hitem]
          simp only [map_some, itemFromRow, Log.appendText, ← hpayload]
          rw [appendPayload_ofItem hstreams]
      · exact fun _ => rfl
    · rw [if_neg hid, own_change_of_ne hid]
      exact h.items id
  | requestChanged request =>
    refine { h with requests := fun id => ?_ }
    simp only [readRequest, Log.project, applyOne, update_self]
    by_cases hid : id = request.id
    · subst hid
      rw [update_self, upsert, update_self]
      cases hrow : db.requests session request.id with
      | none =>
        exact congrArg some
          (read_request hformed ⟨at', rfl⟩ rfl rfl hformed.2.2.1.some).symm
      | some row =>
        obtain ⟨hsession, hrequest, hcreated⟩ := hborn.requests session request.id row hrow
        simp only [map_some]
        refine congrArg some (read_request hformed ⟨at', ?_⟩ ?_ ?_ ?_).symm
        · rfl
        · exact hrequest
        · exact hsession
        · exact hcreated.trans hformed.1
    · rw [update_of_ne hid, upsert, update_of_ne hid]
      exact h.requests id
  | providerThreadChanged thread =>
    refine { h with providerThreads := fun id => ?_ }
    simp only [readProviderThread, Log.project, applyOne]
    by_cases hid : id = thread.id
    · subst hid
      have hown : ∀ row ∈ db.providerThreads thread.id, row.sessionId = session :=
        fun row hrow => (congrArg ThreadBirth.sessionId
          ((hborn.providerThreads thread.id row hrow).trans hformed.1)).trans hformed.2.1
      rw [update_self, own_upsert_self hown, own_eq hown]
      · cases hrow : db.providerThreads thread.id with
        | none =>
          simp only [map_none, getD_none, map_some]
          rw [read_insertThread hformed]
        | some row =>
          simp only [map_some, getD_some]
          rw [read_updateThread hformed (hborn.providerThreads thread.id row hrow)]
      · rfl
      · exact fun _ => rfl
    · rw [update_of_ne hid, own_upsert_of_ne hid]
      exact h.providerThreads id

end Event

/-! ## One batch -/

/-- The log of every session folds into its projection, up to its last sequence. -/
structure Folded (births : Births) (db : Db) : Prop where
  born : Born births db
  agrees : ∀ sessionId, Agrees db sessionId (fold db sessionId)
  sequence : ∀ sessionId,
    (fold db sessionId).sequence = (db.eventSequence sessionId).getD 0
  live : ∀ sessionId, (fold db sessionId).stale = false

theorem folded_init (births : Births) : Folded births Db.empty where
  born :=
    { turns := fun _ _ h => nomatch h
      attempts := fun _ _ h => nomatch h
      items := fun _ _ h => nomatch h
      requests := fun _ _ _ h => nomatch h
      providerThreads := fun _ _ h => nomatch h }
  agrees _ := by constructor <;> intros <;> rfl
  sequence _ := rfl
  live _ := rfl

variable {sessionId : Id} {event' : SessionEvent} {db₀ : Db}

section Batch

variable {births : Births} {db : Db} {stored : StoredSessionEvent}

theorem fold_persist_other (hne : sessionId ≠ stored.sessionId) (now : Date) :
    fold (persist now db stored) sessionId = fold db sessionId := by
  have hevents : (project now db stored).events = db.events := by
    unfold project
    split <;> rfl
  rw [fold, fold, eventsOf, eventsOf, persist]
  simp only [hevents, filter_append, filter_singleton, Ne.symm hne, decide_false,
    cond_false, append_nil]

theorem fold_persist_self (h : Folded births db) (stored : StoredSessionEvent)
    (hnext : stored.sequence = (db.eventSequence stored.sessionId).getD 0 + 1) (now : Date) :
    fold (persist now db stored) stored.sessionId = applyOne (fold db stored.sessionId) stored := by
  have hevents : (project now db stored).events = db.events := by
    unfold project
    split <;> rfl
  rw [fold, eventsOf, persist]
  simp only [hevents, filter_append, filter_singleton]
  rw [applySessionEvents_append]
  refine applySessionEvents_next (h.live stored.sessionId) ?_
  rw [hnext, ← h.sequence stored.sessionId]
  rfl

/-- **Persisting the next event of a session keeps the logs folding into the projections.** -/
theorem Folded.persist (h : Folded births db)
    (hnext : stored.sequence = (db.eventSequence stored.sessionId).getD 0 + 1)
    (hformed : Formed births stored.sessionId stored.event)
    (hfits : Fits db stored.sessionId stored.event) (now : Date) :
    Folded births (persist now db stored) := by
  have hsequence : (project now db stored).eventSequence = db.eventSequence := by
    unfold project
    split <;> rfl
  have hkeeps : ∀ {sessionId state}, Agrees (project now db stored) sessionId state →
      Agrees (Log.persist now db stored) sessionId state := fun hagrees => { hagrees with }
  refine ⟨{ h.born.project hformed now with }, fun sessionId => ?_, fun sessionId => ?_,
    fun sessionId => ?_⟩
  · by_cases hsession : sessionId = stored.sessionId
    · subst hsession
      rw [fold_persist_self h stored hnext]
      exact hkeeps ((h.agrees _).project h.born hformed hfits now)
    · rw [fold_persist_other hsession]
      exact hkeeps ((h.agrees sessionId).project_other hsession now)
  · by_cases hsession : sessionId = stored.sessionId
    · subst hsession
      rw [fold_persist_self h stored hnext, applyOne_sequence, Log.persist]
      simp only [update_self, getD_some]
    · rw [fold_persist_other hsession, h.sequence, Log.persist]
      simp only [update_of_ne hsession, hsequence]
  · by_cases hsession : sessionId = stored.sessionId
    · subst hsession
      rw [fold_persist_self h stored hnext, applyOne_stale, h.live]
    · rw [fold_persist_other hsession, h.live]

/-- Neither bringing an event up to date nor placing it changes what it is asked. -/
theorem Formed.currentTurn {event : SessionEvent} (h : Formed births sessionId event)
    (hcurrent : currentTurn db₀ sessionId event = some event') :
    Formed births sessionId event' := by
  unfold Log.currentTurn at hcurrent
  split at hcurrent
  · split at hcurrent
    · cases hcurrent
      exact h
    · split at hcurrent
      · cases hcurrent
      · split at hcurrent <;> cases hcurrent <;> exact h
  · cases hcurrent
    exact h

theorem Formed.place {event : SessionEvent} (h : Formed births sessionId event)
    (positions : Id → Option Nat) (sequence : Nat) :
    Formed births sessionId (place positions sequence event).2 := by
  unfold Log.place
  split
  · exact h
  · dsimp only
    split <;> exact h
  · exact h

/-- What bringing a turn change up to date can do. -/
theorem currentTurn_turnChanged {turn : Turn}
    (h : currentTurn db₀ sessionId (.turnChanged turn) = some event') :
    ∃ turn', event' = .turnChanged turn' ∧ turn'.id = turn.id ∧
      (turn'.status.active → turn'.cancellationRequested = false → ¬Stands db₀ sessionId turn.id) ∧
      (¬Stands db₀ sessionId turn.id → turn' = turn) := by
  unfold currentTurn at h
  cases hrow : own db₀.turns TurnRow.sessionId sessionId turn.id with
  | none =>
    simp only [hrow, some.injEq] at h
    refine ⟨turn, h.symm, rfl, fun _ _ ⟨row, hmem, _⟩ => ?_, fun _ => rfl⟩
    rw [hrow] at hmem
    cases hmem
  | some row =>
    have hstands : Stands db₀ sessionId turn.id ↔
        row.status.settled ∨ row.cancellationRequestedAt.isSome := by
      simp [Stands, hrow]
    simp only [hrow] at h
    split at h
    · cases h
    · rename_i hback
      split at h
      · rename_i hwithdraw
        simp only [Bool.and_eq_true] at hwithdraw
        simp only [some.injEq] at h
        refine ⟨_, h.symm, rfl, fun _ hasked => ?_, fun hnot => ?_⟩
        · cases hasked
        · exact absurd (hstands.mpr (.inr hwithdraw.2)) hnot
      · rename_i hwithdraw
        simp only [some.injEq] at h
        refine ⟨turn, h.symm, rfl, fun hactive hasked hst => ?_, fun _ => rfl⟩
        rcases hstands.mp hst with hsettled | hrequested
        · exact hback (by rw [hsettled, hactive]; rfl)
        · exact hwithdraw (by rw [hactive, hasked, hrequested]; rfl)

/-- A turn change that bringing up to date leaves out is one of a settled turn. -/
theorem stands_of_currentTurn_none {event : SessionEvent}
    (h : currentTurn db₀ sessionId event = none) :
    ∃ turn, event = .turnChanged turn ∧ Stands db₀ sessionId turn.id := by
  unfold currentTurn at h
  split at h
  · rename_i turn
    refine ⟨turn, rfl, ?_⟩
    split at h
    · cases h
    · rename_i row hrow
      split at h
      · rename_i hback
        simp only [Bool.and_eq_true] at hback
        exact ⟨row, hrow, .inl hback.1⟩
      · split at h <;> cases h
  · cases h

/-- The kind of an item, as the client has it. -/
def clientKind (state : SessionState) (id : Id) : Option ItemKind :=
  (itemById state.items id).map (·.body.kind)

theorem Folded.kindOf_eq (h : Folded births db) (sessionId id : Id) :
    kindOf db sessionId id = clientKind (fold db sessionId) id := by
  rw [kindOf, ← (h.agrees sessionId).items id, Option.map_map]
  rfl

theorem clientKind_upsertItem (state : SessionState) (item : Item) :
    (fun id => (itemById (upsertItem state.items item) id).map (·.body.kind)) =
      update (clientKind state) item.id (some item.body.kind) := by
  funext id
  rw [itemById_upsertItem]
  by_cases hid : id = item.id
  · subst hid
    rw [if_pos rfl, update_self]
    rfl
  · rw [if_neg hid, update_of_ne hid]
    rfl

theorem appendText_kind (item : Item) (field : StreamedField) (text : String) (at' : Stamp) :
    (State.appendText item field text at').body.kind = item.body.kind := by
  obtain ⟨_, _, _, _, _, _, _, _, _, _, _, _, body⟩ := item
  cases field <;> cases body <;> rfl

theorem clientKind_appendItemText (state : SessionState) (itemId : Id) (field : StreamedField)
    (text : String) (at' : Stamp) (id : Id) :
    (itemById (appendItemText state.items itemId field text at') id).map (·.body.kind) =
      clientKind state id := by
  rw [itemById_appendItemText]
  by_cases hid : id = itemId
  · subst hid
    rw [if_pos rfl, Option.map_map, clientKind]
    exact congrArg (Option.map · _) (funext fun item => appendText_kind item field text at')
  · rw [if_neg hid]
    rfl

/-- What is known of a batch in between: the events so far asked and added what they did. -/
structure Between (births : Births) (db₀ : Db) (sessionId : Id) (asked : Id → Bool)
    (kinds : Id → Option ItemKind) (db : Db) : Prop where
  folded : Folded births db
  /-- A request to stop on a turn whose row had none is one the batch left there. -/
  asked : ∀ id, ¬Stands db₀ sessionId id → ∀ turn ∈ (fold db sessionId).turns id,
    turn.cancellationRequested → asked id
  kinds : clientKind (fold db sessionId) = kinds

section Between

variable {db₀ : Db} {sessionId : Id} {asked : Id → Bool} {kinds : Id → Option ItemKind}

/-- A turn change of a batch fits the row it changes. -/
theorem Between.fits_turn (h : Between births db₀ sessionId asked kinds db) {turn turn' : Turn}
    (hid : turn'.id = turn.id) (hnot : turn'.status.active → turn'.cancellationRequested = false →
      ¬Stands db₀ sessionId turn.id)
    (hsame : ¬Stands db₀ sessionId turn.id → turn' = turn)
    (hstand : turn.status.active → turn.cancellationRequested = false → asked turn.id →
      Stands db₀ sessionId turn.id) :
    Fits db sessionId (.turnChanged turn') := by
  intro hactive hasked row hrow
  have hfree := hnot hactive hasked
  rw [hsame hfree] at hactive hasked
  rw [hid] at hrow
  by_contra hset
  have hread := (h.folded.agrees sessionId).turns 0 turn.id
  rw [readTurn, mem_def.mp hrow, map_some, map_some, map_eq_some_iff] at hread
  obtain ⟨held, hheld, hsame⟩ := hread
  have hrequested : held.cancellationRequested = row.cancellationRequestedAt.isSome :=
    congrArg Turn.cancellationRequested hsame
  have hasked' : asked turn.id := by
    refine h.asked turn.id hfree held hheld ?_
    rw [hrequested]
    exact isSome_iff_ne_none.mpr hset
  exact hfree (hstand hactive hasked hasked')

/-- The next event of a batch, as stored. -/
def nextStored (db : Db) (sessionId : Id) (at' : Stamp) (commandId : Option String)
    (event : SessionEvent) : StoredSessionEvent :=
  ⟨sessionId, (db.eventSequence sessionId).getD 0 + 1, at', commandId, event⟩

variable {at' : Stamp} {commandId : Option String} {now : Date}

theorem fold_nextStored (h : Folded births db) (sessionId : Id) (event : SessionEvent) :
    fold (persist now db (nextStored db sessionId at' commandId event)) sessionId =
      applyOne (fold db sessionId) (nextStored db sessionId at' commandId event) :=
  fold_persist_self h (nextStored db sessionId at' commandId event) rfl now

section

variable (h : Between births db₀ sessionId asked kinds db)
include h

/-- After a turn change the batch asks for that turn what the change asks. -/
theorem Between.turn {turn turn' : Turn}
    (hcurrent : currentTurn db₀ sessionId (.turnChanged turn) = some (.turnChanged turn'))
    (hformed : Formed births sessionId (.turnChanged turn'))
    (hstand : turn.status.active → turn.cancellationRequested = false → asked turn.id →
      Stands db₀ sessionId turn.id) :
    Between births db₀ sessionId (update asked turn.id turn.cancellationRequested) kinds
      (persist now db (nextStored db sessionId at' commandId (.turnChanged turn'))) := by
  obtain ⟨_, heq, hid, hnot, hsame⟩ := currentTurn_turnChanged hcurrent
  cases heq
  refine ⟨h.folded.persist rfl hformed (h.fits_turn hid hnot hsame hstand) now, ?_, ?_⟩
  · intro id hfree held hheld hrequested
    rw [fold_nextStored h.folded] at hheld
    simp only [applyOne, nextStored] at hheld
    by_cases hturn : id = turn.id
    · subst hturn
      rw [hsame hfree, update_self, mem_some_iff] at hheld
      rwa [update_self, hheld]
    · rw [update_of_ne (hid ▸ hturn)] at hheld
      rw [update_of_ne hturn]
      exact h.asked id hfree held hheld hrequested
  · rw [fold_nextStored h.folded]
    exact h.kinds

/-- After an item is put in place its kind is known. -/
theorem Between.item {event : SessionEvent}
    {item : Item} (hevent : event = .itemAdded item ∨ event = .itemChanged item)
    (hformed : Formed births sessionId event) :
    Between births db₀ sessionId asked (update kinds item.id (some item.body.kind))
      (persist now db (nextStored db sessionId at' commandId event)) := by
  have hfits : Fits db sessionId event := by
    rcases hevent with rfl | rfl <;> trivial
  have happly : (applyOne (fold db sessionId) (nextStored db sessionId at' commandId event)).turns =
        (fold db sessionId).turns ∧
      (applyOne (fold db sessionId) (nextStored db sessionId at' commandId event)).items =
        upsertItem (fold db sessionId).items item := by
    rcases hevent with rfl | rfl <;> exact ⟨rfl, rfl⟩
  refine ⟨h.folded.persist rfl hformed hfits now, ?_, ?_⟩
  · rw [fold_nextStored h.folded, happly.1]
    exact h.asked
  · rw [fold_nextStored h.folded, ← h.kinds, ← clientKind_upsertItem, ← happly.2]
    rfl

/-- The other events leave turns and kinds as they are. -/
theorem Between.other {event : SessionEvent}
    (hformed : Formed births sessionId event) (hfits : Fits db sessionId event)
    (hturns : ∀ state stored, stored.event = event → (applyOne state stored).turns = state.turns)
    (hkinds : ∀ state stored, stored.event = event →
      clientKind (applyOne state stored) = clientKind state) :
    Between births db₀ sessionId asked kinds
      (persist now db (nextStored db sessionId at' commandId event)) := by
  refine ⟨h.folded.persist rfl hformed hfits now, ?_, ?_⟩
  · rw [fold_nextStored h.folded, hturns _ _ rfl]
    exact h.asked
  · rw [fold_nextStored h.folded, hkinds _ _ rfl, h.kinds]

end

/-- Placing a change gives the item a position at most. -/
theorem place_itemChanged (positions : Id → Option Nat) (sequence : Nat) (item : Item) :
    ∃ item', (place positions sequence (.itemChanged item)).2 = .itemChanged item' ∧
      item'.id = item.id ∧ item'.body = item.body := by
  cases hposition : positions item.id with
  | none => exact ⟨item, by simp only [place, hposition], rfl, rfl⟩
  | some position => exact ⟨item.placedAt position, by simp only [place, hposition], rfl, rfl⟩

variable (at' commandId now) in
/-- **One event of a batch** is projected as it is applied, and the rest of the batch goes on. -/
theorem Between.event (h : Between births db₀ sessionId asked kinds db)
    {event event' : SessionEvent} {events : List SessionEvent}
    (hformed : Formed births sessionId event)
    (hcurrent : currentTurn db₀ sessionId event = some event')
    (hrequests : RequestsStand (Stands db₀ sessionId) asked (event :: events))
    (happends : AppendsStream kinds (event :: events)) (positions : Id → Option Nat)
    (sequence : Nat) : ∃ asked' kinds', Between births db₀ sessionId asked' kinds'
        (persist now db (nextStored db sessionId at' commandId
          (place positions sequence event').2)) ∧
      RequestsStand (Stands db₀ sessionId) asked' events ∧ AppendsStream kinds' events := by
  have hplaced := (hformed.currentTurn hcurrent).place positions sequence
  cases event with
  | turnChanged turn =>
    obtain ⟨turn', rfl, -, -, -⟩ := currentTurn_turnChanged hcurrent
    exact ⟨_, _, h.turn hcurrent hplaced hrequests.1, hrequests.2, happends⟩
  | itemAdded item =>
    cases hcurrent
    exact ⟨_, _, h.item (.inl rfl) hplaced, hrequests, happends⟩
  | itemChanged item =>
    cases hcurrent
    obtain ⟨item', hplace, hid, hbody⟩ := place_itemChanged positions sequence item
    rw [hplace] at hplaced ⊢
    refine ⟨_, _, h.item (.inr rfl) hplaced, hrequests, ?_⟩
    rwa [hid, hbody]
  | itemTextAppended itemId field text appendedAt =>
    cases hcurrent
    refine ⟨asked, kinds, h.other hplaced ?_ (fun state stored heq => ?_) fun state stored heq =>
      ?_,
      hrequests, happends.2⟩
    · intro kind hkind
      rw [h.folded.kindOf_eq, h.kinds] at hkind
      exact happends.1 kind hkind
    · rw [applyOne, heq]
      rfl
    · funext id
      rw [clientKind, applyOne, heq]
      exact clientKind_appendItemText state itemId field text appendedAt id
  | sessionChanged | attemptChanged | requestChanged | providerThreadChanged =>
    cases hcurrent
    refine ⟨asked, kinds, h.other hplaced trivial (fun state stored heq => ?_)
      fun state stored heq => ?_, hrequests, happends⟩
    · rw [applyOne, heq]
      rfl
    · rw [applyOne, heq]
      rfl

variable (at' commandId now) in
/-- **Every event of a batch is projected as it is applied.** -/
theorem Between.placeAll (events : List SessionEvent)
    (h : Between births db₀ sessionId asked kinds db)
    (hformed : ∀ event ∈ events, Formed births sessionId event)
    (hrequests : RequestsStand (Stands db₀ sessionId) asked events)
    (happends : AppendsStream kinds events) (positions : Id → Option Nat) :
    Folded births ((placeAll sessionId at' commandId positions
      ((db.eventSequence sessionId).getD 0 + 1) (currentTurns db₀ sessionId events)).foldl
        (persist now) db) := by
  induction events generalizing db asked kinds positions with
  | nil => exact h.folded
  | cons event events ih =>
    have htail : ∀ event ∈ events, Formed births sessionId event :=
      fun event hevent => hformed event (mem_cons_of_mem _ hevent)
    cases hcurrent : currentTurn db₀ sessionId event with
    | none =>
      -- Only a change of a settled turn is left out, and no request of it matters.
      obtain ⟨turn, rfl, hstands⟩ := stands_of_currentTurn_none hcurrent
      rw [currentTurns, filterMap_cons_none hcurrent, ← currentTurns]
      refine ih ⟨h.folded, fun id hfree held hheld hrequested => ?_, h.kinds⟩ htail
        hrequests.2 happends positions
      have hne : id ≠ turn.id := fun heq => hfree (heq ▸ hstands)
      rw [update_of_ne hne]
      exact h.asked id hfree held hheld hrequested
    | some event' =>
      obtain ⟨asked', kinds', hnext, hrequests', happends'⟩ :=
        h.event at' commandId now (hformed event mem_cons_self) hcurrent hrequests
          happends positions ((db.eventSequence sessionId).getD 0 + 1)
      have hrest := ih hnext htail hrequests' happends'
        (place positions ((db.eventSequence sessionId).getD 0 + 1) event').1
      rw [currentTurns, filterMap_cons_some hcurrent, ← currentTurns, Log.placeAll, foldl_cons]
      simpa only [nextStored, persist, update_self, getD_some] using hrest

end Between

/-- **A batch keeps the logs folding into the projections.** -/
theorem Folded.append {db' : Db} (h : Folded births db) {input : Append}
    (hsound : Sound births db input) (happend : append db input = some db') :
    Folded births db' := by
  rw [Log.append, map_eq_some_iff] at happend
  obtain ⟨sequence, hsequence, rfl⟩ := happend
  have hbetween : Between births db input.sessionId (fun _ => false)
      (kindOf db input.sessionId) db := by
    refine ⟨h, fun id hfree turn hturn hrequested => ?_, (funext (h.kindOf_eq _)).symm⟩
    have hread := (h.agrees input.sessionId).turns 0 id
    rw [mem_def.mp hturn, map_some, readTurn, eq_comm, Option.map_map, map_eq_some_iff] at hread
    obtain ⟨row, hrow, hsame⟩ := hread
    refine absurd ⟨row, hrow, .inr ?_⟩ hfree
    exact (congrArg Turn.cancellationRequested hsame).trans hrequested
  have hbatch := hbetween.placeAll (toISOString input.clock) input.commandId input.now
    input.events hsound.formed hsound.requests hsound.appends fun _ => none
  rwa [hsequence] at hbatch

theorem Folded.create {db' : Db} (h : Folded births db)
    (hcreate : write db (.create sessionId) = some db') : Folded births db' := by
  rw [write] at hcreate
  split at hcreate
  · rename_i hnew
    cases hcreate
    refine { h with
      born := { h.born with }
      agrees := fun session => { h.agrees session with }
      sequence := fun session => (h.sequence session).trans ?_ }
    by_cases hsession : session = sessionId
    · subst hsession
      simp only [hnew, update_self, getD_none, getD_some]
    · simp only [update_of_ne hsession]
  · cases hcreate

end Batch

/-! ## Every run -/

/--
**The log of every session folds into exactly what its projection holds**, in every state
that sound batches lead to.
-/
theorem log_folds_into_projections (births : Births) {db : Db}
    (h : Runs.Reach write (SoundWrite births) Db.empty db) (sessionId : Id) :
    Agrees db sessionId (fold db sessionId) := by
  refine (h.invariant (folded_init births) fun db w db' hfolded hsound hwrite => ?_).agrees
    sessionId
  cases w with
  | create session => exact hfolded.create hwrite
  | append input => exact hfolded.append hsound hwrite

/-! ## Runs -/

/-- A turn at work, asked to stop or not. -/
def running (cancellationRequested : Bool) : Turn where
  id := 1
  sessionId := 1
  ordinal := 1
  status := .running
  inputItemId := none
  dispatch := .queue
  priority := 0
  activity := none
  activityAt := none
  providerRetry := none
  attemptCount := 1
  activeAttemptId := none
  providerThreadId := none
  retryAt := none
  cancellationRequested := cancellationRequested
  error := none
  outcome := none
  checkpoint := ⟨none, none⟩
  continuationOf := none
  createdAt := toISOString 0
  startedAt := some (toISOString 0)
  completedAt := none
  updatedAt := toISOString 0

/-- An item of the turn that nothing has changed since it was added. -/
def added (body : ItemBody) : Item where
  id := 2
  sessionId := 1
  turnId := some 1
  attemptId := none
  parentItemId := none
  position := 0
  status := .inProgress
  nativeRef := none
  createdAt := toISOString 0
  updatedAt := toISOString 0
  startedAt := none
  endedAt := none
  body := body

/-- One turn of session 1 and its items. -/
def oneTurn : Births where
  turn _ := turnBirth (running false)
  attempt _ := ⟨0, 1, 1, 1, .initial, toISOString 0⟩
  item _ := 1
  request _ _ := toISOString 0
  providerThread _ := ⟨0, 1, toISOString 0⟩

theorem formed_running (cancellationRequested : Bool) :
    Formed oneTurn 1 (.turnChanged (running cancellationRequested)) := by
  refine ⟨rfl, rfl, ?_, nofun, nofun⟩
  simp [AllIso, running, Stamp.Iso, toISOString]

/-- A batch of session 1, at the start of its transaction. -/
def batch (clock : Date) (events : List SessionEvent) : Append :=
  { sessionId := 1, events, commandId := none, now := clock, clock }

/-- A turn that reasons is asked to stop, and written again by one who did not know. -/
theorem log_folds_into_projections_stopped :
    ∃ db, Runs.Reach write (SoundWrite oneTurn) Db.empty db ∧
      ((fold db 1).turns 1).map Turn.cancellationRequested = some true ∧
      Agrees db 1 (fold db 1) := by
  let first := batch 1 [.turnChanged (running true), .itemAdded (added (.reasoning "a")),
    .itemTextAppended 2 .text "b" (toISOString 1)]
  let second := batch 2 [.turnChanged (running false)]
  obtain ⟨db₁, h₁⟩ : ∃ db₁, write Db.empty (.create 1) = some db₁ := ⟨_, rfl⟩
  obtain ⟨db₂, h₂⟩ : ∃ db₂, write db₁ (.append first) = some db₂ := by
    cases h₁
    exact ⟨_, rfl⟩
  obtain ⟨db, h⟩ : ∃ db, write db₂ (.append second) = some db := by
    cases h₁
    cases h₂
    exact ⟨_, rfl⟩
  have hfirst : Sound oneTurn db₁ first := by
    refine ⟨fun event hevent => ?_, ⟨fun _ => Bool.noConfusion, trivial⟩,
      fun kind hkind => ?_, trivial⟩
    · simp only [first, batch, mem_cons, not_mem_nil, or_false] at hevent
      rcases hevent with rfl | rfl | rfl
      · exact formed_running true
      · rfl
      · trivial
    · cases hkind
      rfl
  have hsecond : Sound oneTurn db₂ second := by
    refine ⟨fun event hevent => ?_, ⟨fun _ _ h => (nomatch h), trivial⟩, trivial⟩
    rw [mem_singleton.mp hevent]
    exact formed_running false
  have hreach : Runs.Reach write (SoundWrite oneTurn) Db.empty db :=
    ((Runs.Reach.init.tail (show SoundWrite oneTurn _ (.create 1) from trivial) h₁).tail
      (show SoundWrite oneTurn _ (.append first) from hfirst) h₂).tail
      (show SoundWrite oneTurn _ (.append second) from hsecond) h
  refine ⟨db, hreach, ?_, log_folds_into_projections oneTurn hreach 1⟩
  cases h₁
  cases h₂
  cases h
  rfl

/--
One batch asks a turn to stop and writes it again at work: the row keeps the request, the
log does not. The batch also appends text to a notice: its row has it, a client has not.
-/
theorem request_withdrawn_in_batch :
    ∃ db input, Runs.exec write Db.empty [.create 1, .append input] = some db ∧
      (∀ event ∈ input.events, Formed oneTurn input.sessionId event) ∧
      ((fold db 1).turns 1).map Turn.cancellationRequested = some false ∧
      (readTurn 0 db 1 1).map Turn.cancellationRequested = some true ∧
      (itemById (fold db 1).items 2).map Item.updatedAt = some (toISOString 0) ∧
      (readItem db 1 2).map (·.item.updatedAt) = some (toISOString 1) := by
  refine ⟨_, batch 1 [.turnChanged (running true), .turnChanged (running false),
    .itemAdded (added (.notice "moved" "" ⟨"{}"⟩)),
    .itemTextAppended 2 .text "b" (toISOString 1)], rfl, ?_, rfl, rfl, rfl, rfl⟩
  intro event hevent
  simp only [batch, mem_cons, not_mem_nil, or_false] at hevent
  rcases hevent with rfl | rfl | rfl | rfl
  · exact formed_running true
  · exact formed_running false
  · rfl
  · trivial

end Catamorphic.Sessions.LogFold
