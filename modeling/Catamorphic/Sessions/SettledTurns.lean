import Catamorphic.Sessions.LogFold
import Catamorphic.Sessions.SettleTurn

/-!
# A turn that ended leaves no open work

What a turn's settling, or the loss of its attempt, leaves in the tables: nothing of the turn is
in progress, but for a question that does not block, whose answer becomes a message. Rows are
kept with the session of their turn, which every batch of such rows preserves.
-/

namespace Catamorphic.Sessions.Settling

open Protocol Rows Log Table List Option Function

/-! ## Batches that are appended -/

/-- An event but for the place that a batch gives its item. -/
def unplaced : SessionEvent → SessionEvent
  | .itemAdded item => .itemAdded (item.placedAt 0)
  | .itemChanged item => .itemChanged (item.placedAt 0)
  | event => event

theorem unplaced_place (positions : Id → Option Nat) (sequence : Nat) (event : SessionEvent) :
    unplaced (place positions sequence event).2 = unplaced event := by
  cases event with
  | itemAdded item => rfl
  | itemChanged item =>
    rw [place]
    cases positions item.id <;> rfl
  | _ => rfl

theorem unplaced_placeAll (sessionId : Id) (at' : Stamp) (commandId : Option String)
    (positions : Id → Option Nat) (sequence : Nat) (events : List SessionEvent) :
    (placeAll sessionId at' commandId positions sequence events).map
      (fun stored => unplaced stored.event) = events.map unplaced := by
  induction events generalizing positions sequence with
  | nil => rfl
  | cons event events ih =>
    rw [placeAll, map_cons, map_cons, ih]
    rw [unplaced_place]

variable {sessionId : Id} {events : List SessionEvent}

/-- A change of a turn that is not at work is appended as it is. -/
theorem currentTurns_eq {db : Db}
    (h : ∀ turn, .turnChanged turn ∈ events → turn.status.active = false) :
    currentTurns db sessionId events = events := by
  refine (filterMap_congr fun event hevent => ?_).trans filterMap_some
  cases event with
  | turnChanged turn =>
    rw [currentTurn, h turn hevent]
    rcases own db.turns TurnRow.sessionId sessionId turn.id with _ | row
    · rfl
    · simp
  | _ => rfl

/-- A row that is put under a key: inserted, or set if it is there. -/
structure Put (κ ρ : Type) where
  key : κ
  insert : ρ
  set : ρ → ρ

section

variable {κ ρ : Type} [DecidableEq κ]

/-- A table after an event of a session, with the row that it puts. -/
def putRow (ownerOf : ρ → Id) (sessionId : Id) (table : κ → Option ρ) :
    Option (Put κ ρ) → κ → Option ρ
  | some p => upsert table ownerOf p.key sessionId p.insert p.set
  | none => table

variable {ownerOf : ρ → Id} {get : Db → κ → Option ρ}
  {put : StoredSessionEvent → Option (Put κ ρ)} {sessionId : Id} {now : Date}

/-- What a batch does to a table: a row was written with one of its events, or stands as it was. -/
theorem row_of_persists {stored : List StoredSessionEvent} {Q : κ → ρ → Prop} {db : Db}
    (hget : ∀ db, ∀ s ∈ stored, get (persist now db s) = putRow ownerOf sessionId (get db) (put s))
    (hput : ∀ s ∈ stored, ∀ p, put s = some p → Q p.key p.insert ∧ ∀ row, Q p.key (p.set row))
    {key : κ} {row : ρ} (hrow : get (stored.foldl (persist now) db) key = some row) :
    Q key row ∨ (get db key = some row ∧
      ∀ s ∈ stored, ∀ p, put s = some p → p.key = key → ownerOf row ≠ sessionId) := by
  induction stored generalizing db with
  | nil => exact .inr ⟨hrow, fun s hs => absurd hs not_mem_nil⟩
  | cons first stored ih =>
    rcases ih (fun db s hs => hget db s (mem_cons_of_mem _ hs))
      (List.forall_mem_cons.mp hput).2 hrow with hQ | ⟨hkept, hrest⟩
    · exact .inl hQ
    · rw [hget db first (.head _)] at hkept
      rcases hfirst : put first with _ | p
      · rw [hfirst] at hkept
        refine .inr ⟨hkept, ?_⟩
        rintro s (_ | ⟨_, hs⟩)
        · exact fun p hp => by rw [hfirst] at hp; cases hp
        · exact hrest s hs
      · rw [hfirst] at hkept
        obtain ⟨hinsert, hset⟩ := hput first (.head _) p hfirst
        have hothers : p.key ≠ key → ∀ s ∈ first :: stored, ∀ q, put s = some q → q.key = key →
            ownerOf row ≠ sessionId := by
          rintro hne s (_ | ⟨_, hs⟩) q hq hkey
          · rw [hfirst] at hq
            cases hq
            exact absurd hkey hne
          · exact hrest s hs q hq hkey
        simp only [putRow, upsert] at hkept
        by_cases hkey : key = p.key
        · subst hkey
          rw [update_self] at hkept
          rcases hold : get db p.key with _ | old
          · rw [hold] at hkept
            cases hkept
            exact .inl hinsert
          · rw [hold] at hkept
            dsimp only at hkept
            split at hkept
            · cases hkept
              exact .inl (hset old)
            · next howner =>
              cases hkept
              exact .inr ⟨rfl, fun s hs q hq hsame => howner⟩
        · rw [update_of_ne hkey] at hkept
          exact .inr ⟨hkept, hothers fun heq => hkey heq.symm⟩

/-- A key that no event of the batch writes keeps its row. -/
theorem row_stays {stored : List StoredSessionEvent} {db : Db}
    (hget : ∀ db, ∀ s ∈ stored, get (persist now db s) = putRow ownerOf sessionId (get db) (put s))
    {key : κ} (hkey : ∀ s ∈ stored, ∀ p, put s = some p → p.key ≠ key) :
    get (stored.foldl (persist now) db) key = get db key := by
  induction stored generalizing db with
  | nil => rfl
  | cons first stored ih =>
    rw [foldl_cons, ih (fun db s hs => hget db s (mem_cons_of_mem _ hs))
      (List.forall_mem_cons.mp hkey).2, hget db first (.head _)]
    rcases hfirst : put first with _ | p
    · rfl
    · exact update_of_ne (hkey first (.head _) p hfirst).symm ..

end

/-! ## The tables of a batch -/

/-- An item's row as an event writes it, but for its place. -/
def itemPut (stored : StoredSessionEvent) : Option (Put Id ItemRow) :=
  match stored.event with
  | .itemAdded item | .itemChanged item =>
    some ⟨item.id, insertItem stored.sessionId item, updateItem item⟩
  | _ => none

def requestPut (stored : StoredSessionEvent) : Option (Put Id RequestRow) :=
  match stored.event with
  | .requestChanged request =>
    some ⟨request.id, insertRequest stored.sessionId stored.at' request, fun row =>
      { row with
        toRequestValues := requestValues stored.at' request
        revision := row.revision + 1 }⟩
  | _ => none

def attemptPut (stored : StoredSessionEvent) : Option (Put Id AttemptRow) :=
  match stored.event with
  | .attemptChanged attempt =>
    some ⟨attempt.id, insertAttempt stored.sessionId attempt,
      fun row => { row with toAttemptValues := attemptValues attempt }⟩
  | _ => none

def turnPut (now : Date) (stored : StoredSessionEvent) : Option (Put Id TurnRow) :=
  match stored.event with
  | .turnChanged turn =>
    some ⟨turn.id, insertTurn now stored.sessionId stored.at' turn, updateTurn stored.at' turn⟩
  | _ => none

section

variable {stored : StoredSessionEvent} {now : Date} {db : Db}

theorem items_persist (h : ∀ itemId field text at', stored.event ≠ .itemTextAppended itemId field
    text at') : (persist now db stored).items =
      putRow ItemRow.sessionId stored.sessionId db.items (itemPut stored) := by
  obtain ⟨sessionId, sequence, at', commandId, event⟩ := stored
  cases event with
  | itemTextAppended itemId field text at' => exact absurd rfl (h itemId field text at')
  | _ => rfl

theorem requests_persist : (persist now db stored).requests stored.sessionId =
    putRow (fun _ => stored.sessionId) stored.sessionId (db.requests stored.sessionId)
      (requestPut stored) := by
  obtain ⟨sessionId, sequence, at', commandId, event⟩ := stored
  cases event with
  | requestChanged request => exact update_self ..
  | _ => rfl

theorem requests_persist_other (h : sessionId ≠ stored.sessionId) :
    (persist now db stored).requests sessionId = db.requests sessionId := by
  obtain ⟨session, sequence, at', commandId, event⟩ := stored
  cases event with
  | requestChanged request => exact update_of_ne h ..
  | _ => rfl

theorem attempts_persist : (persist now db stored).attempts =
    putRow AttemptRow.sessionId stored.sessionId db.attempts (attemptPut stored) := by
  obtain ⟨sessionId, sequence, at', commandId, event⟩ := stored
  cases event <;> rfl

theorem turns_persist : (persist now db stored).turns =
    putRow TurnRow.sessionId stored.sessionId db.turns (turnPut now stored) := by
  obtain ⟨sessionId, sequence, at', commandId, event⟩ := stored
  cases event <;> rfl

end

/-! ## Rows and their sessions -/

/-- Rows are kept under their ids, an item's columns are those of its payload, and what is of a
turn is in the turn's session. -/
structure Housed (home : Id → Id) (db : Db) : Prop where
  items : Each (fun id row => row.id = id ∧ row.payload.item.id = id ∧
    row.kind = row.payload.item.body.kind ∧
    ∀ turn, row.turnId = some turn → row.sessionId = home turn) db.items
  requests : ∀ sessionId, Each (fun id row => row.requestId = id ∧
    ∀ turn, row.turnId = some turn → sessionId = home turn) (db.requests sessionId)
  attempts : Each (fun _ row => row.sessionId = home row.turnId) db.attempts
  turns : Each (fun id row => row.id = id ∧ row.sessionId = home id) db.turns

/-- What an event writes is of turns in its session. -/
def Houses (home : Id → Id) (sessionId : Id) : SessionEvent → Prop
  | .turnChanged turn => sessionId = home turn.id
  | .itemAdded item | .itemChanged item => ∀ turn, item.turnId = some turn → sessionId = home turn
  | .requestChanged request => ∀ turn, request.turnId = some turn → sessionId = home turn
  | .attemptChanged attempt => sessionId = home attempt.turnId
  | .sessionChanged _ | .itemTextAppended .. | .providerThreadChanged _ => True

theorem housed_empty (home : Id → Id) : Housed home .empty where
  items _ _ h := by cases h
  requests _ _ _ h := by cases h
  attempts _ _ h := by cases h
  turns _ _ h := by cases h

variable {positions : Id → Option Nat} {sequence : Nat} {event event' : SessionEvent}

section

variable {home : Id → Id} {db db' : Db} {now : Date}

/-- An event keeps rows housed. -/
theorem Housed.persist {stored : StoredSessionEvent} (h : Housed home db)
    (hevent : Houses home stored.sessionId stored.event) :
    Housed home (Log.persist now db stored) := by
  obtain ⟨sessionId, sequence, at', commandId, event⟩ := stored
  have hitems : ∀ item : Item, (∀ turn, item.turnId = some turn → sessionId = home turn) →
      Housed home (Log.persist now db ⟨sessionId, sequence, at', commandId, .itemChanged item⟩) :=
    fun item hitem => ⟨h.items.upsert_own ⟨rfl, rfl, rfl, hitem⟩ fun row hown hrow =>
      ⟨hrow.1, rfl, rfl, fun turn hturn => hown.trans (hitem turn hturn)⟩,
      h.requests, h.attempts, h.turns⟩
  cases event with
  | sessionChanged fields | providerThreadChanged thread =>
    exact { h with }
  | turnChanged turn =>
    exact ⟨h.items, h.requests, h.attempts, h.turns.upsert ⟨rfl, hevent⟩ fun row hrow => hrow⟩
  | attemptChanged attempt =>
    exact ⟨h.items, h.requests, h.attempts.upsert hevent fun row hrow => hrow, h.turns⟩
  | itemAdded item => exact ⟨(hitems item hevent).items, h.requests, h.attempts, h.turns⟩
  | itemChanged item => exact hitems item hevent
  | itemTextAppended itemId field text stamp =>
    refine ⟨h.items.change fun row hrow => ⟨hrow.1, ?_, ?_, hrow.2.2.2⟩, h.requests, h.attempts,
      h.turns⟩
    · refine Eq.trans ?_ hrow.2.1
      show (appendPayload field text stamp row.payload).item.id = _
      unfold appendPayload
      split <;> rfl
    · exact hrow.2.2.1.trans (LogFold.appendPayload_kind row.payload field text).symm
  | requestChanged request =>
    refine ⟨h.items, fun session => ?_, h.attempts, h.turns⟩
    by_cases hsession : session = sessionId
    · subst hsession
      show Each _ (update db.requests session _ session)
      rw [update_self]
      exact (h.requests session).upsert ⟨rfl, hevent⟩ fun row hrow => ⟨hrow.1, hevent⟩
    · show Each _ (update db.requests sessionId _ session)
      rw [update_of_ne hsession]
      exact h.requests session

theorem houses_place (h : Houses home sessionId event) :
    Houses home sessionId (place positions sequence event).2 := by
  cases event with
  | itemChanged item =>
    rw [place]
    cases positions item.id <;> exact h
  | _ => exact h

theorem houses_currentTurn (h : Houses home sessionId event)
    (hcurrent : currentTurn db sessionId event = some event') : Houses home sessionId event' := by
  unfold currentTurn at hcurrent
  split at hcurrent
  · split at hcurrent
    · cases hcurrent
      exact h
    · split at hcurrent
      · cases hcurrent
      · split at hcurrent
        · cases hcurrent
          exact h
        · cases hcurrent
          exact h
  · cases hcurrent
    exact h

theorem Housed.placed {at' : Stamp} {commandId : Option String} (h : Housed home db)
    (hevents : ∀ event ∈ events, Houses home sessionId event) :
    Housed home ((placeAll sessionId at' commandId positions sequence events).foldl
      (Log.persist now) db) := by
  induction events generalizing db positions sequence with
  | nil => exact h
  | cons event events ih =>
    exact ih (h.persist (houses_place (hevents event (.head _))))
      (List.forall_mem_cons.mp hevents).2

/-- **What writes the log keeps rows housed**, where a batch's rows are of turns of its session. -/
theorem Housed.write {write : Write} (h : Housed home db) (hwrite : ∀ input, write = .append input →
      ∀ event ∈ input.events, Houses home input.sessionId event)
    (hnext : Log.write db write = some db') : Housed home db' := by
  cases write with
  | create sessionId =>
    rw [Log.write] at hnext
    split at hnext
    · cases hnext
      exact { h with }
    · cases hnext
  | append input =>
    obtain ⟨sequence, -, rfl⟩ := map_eq_some_iff.mp hnext
    refine h.placed fun event hevent => ?_
    obtain ⟨old, hold, hcurrent⟩ := mem_filterMap.mp hevent
    exact houses_currentTurn (hwrite input rfl old hold) hcurrent

/-- **Rows are housed after every run of writes.** -/
theorem housed_run {writes : List Write} (hwrites : ∀ input, .append input ∈ writes →
      ∀ event ∈ input.events, Houses home input.sessionId event)
    (h : Housed home db) (hrun : writes.foldlM Log.write db = some db') : Housed home db' := by
  induction writes generalizing db with
  | nil => exact some.inj hrun ▸ h
  | cons write writes ih =>
    obtain ⟨next, hnext, hrest⟩ := bind_eq_some_iff.mp hrun
    refine ih (fun input hinput => hwrites input (mem_cons_of_mem _ hinput))
      (h.write (fun input hinput => hwrites input (hinput ▸ mem_cons_self)) hnext) hrest

end

/-- An item that is work of the turn, and in progress. -/
def Working (turnId : Id) (item : Item) : Prop :=
  item.turnId = some turnId ∧ isInputKind item.body.kind = false ∧ item.status = .inProgress

/-- An event of a turn's end: nothing of the turn is in progress with it, a question that outlives
the turn is let be, and the turn is as `last` says. -/
def Ending {db : Db} {turn : Turn} (work : OpenWork db turn) (last : Turn) : SessionEvent → Prop
  | .turnChanged other => other.status.active = false ∧ (other.id = turn.id → other = last)
  | .itemAdded item | .itemChanged item => ¬ Working turn.id item
  | .requestChanged request => request.status ≠ .pending ∧ request.id ∉ outliving work.requests
  | .attemptChanged attempt => stillRuns attempt.status = false
  | .itemTextAppended .. => False
  | .sessionChanged _ | .providerThreadChanged _ => True

/-- A batch that ends a turn and closes its open work. -/
structure Closes (db : Db) (turn : Turn) (work : OpenWork db turn) (last : Turn)
    (events : List SessionEvent) : Prop where
  ending : ∀ event ∈ events, Ending work last event
  ends : .turnChanged last ∈ events
  last_id : last.id = turn.id
  cancelled : ∀ row ∈ work.items, isRequestOf (outliving work.requests) row.payload.item = false →
    ∃ item, .itemChanged item ∈ events ∧ item.id = row.payload.item.id
  expired : ∀ row ∈ work.requests, row.requestId ∉ outliving work.requests →
    ∃ request, .requestChanged request ∈ events ∧ request.id = row.requestId

section

variable {home : Id → Id} {db db' : Db} {turn : Turn} {work : OpenWork db turn}
  {last : Turn} {events : List SessionEvent} {commandId : Option String} {now clock : Date}
  {id : Id} {reason : String} {item : Item}

/-- Events that are stored for a session: those of a batch, but for places. -/
structure Stores (sessionId : Id) (events : List SessionEvent) (stored : List StoredSessionEvent) :
    Prop where
  sessionId_eq : ∀ s ∈ stored, s.sessionId = sessionId
  mem : ∀ s ∈ stored, ∃ event ∈ events, unplaced s.event = unplaced event
  exists_mem : ∀ event ∈ events, ∃ s ∈ stored, unplaced s.event = unplaced event

theorem stores_placeAll {at' : Stamp} :
    Stores sessionId events (placeAll sessionId at' commandId positions sequence events) := by
  have hmap := unplaced_placeAll sessionId at' commandId positions sequence events
  refine ⟨fun s => placeAll_sessionId, fun s hs => ?_, fun event hevent => ?_⟩
  · have hmem := mem_map_of_mem (f := fun stored => unplaced stored.event) hs
    rw [hmap] at hmem
    obtain ⟨event, hevent, heq⟩ := mem_map.mp hmem
    exact ⟨event, hevent, heq.symm⟩
  · have hmem := mem_map_of_mem (f := unplaced) hevent
    rw [← hmap] at hmem
    obtain ⟨s, hs, heq⟩ := mem_map.mp hmem
    exact ⟨s, hs, heq⟩

/-- What a batch that ends a turn leaves. -/
theorem Closes.stored (hcloses : Closes db turn work last events)
    (h : append db ⟨turn.sessionId, events, commandId, now, clock⟩ = some db') :
    ∃ stored, Stores turn.sessionId events stored ∧ db' = stored.foldl (persist now) db := by
  obtain ⟨sequence, -, rfl⟩ := map_eq_some_iff.mp h
  rw [currentTurns_eq fun other hother => (hcloses.ending _ hother).1]
  exact ⟨_, stores_placeAll, rfl⟩

theorem eq_of_unplaced (h : unplaced event = unplaced event')
    (hadded : ∀ item, event ≠ .itemAdded item) (hchanged : ∀ item, event ≠ .itemChanged item) :
    event' = event := by
  cases event with
  | itemAdded item => exact absurd rfl (hadded item)
  | itemChanged item => exact absurd rfl (hchanged item)
  | _ =>
    cases event' with
    | itemAdded item => cases h
    | itemChanged item => cases h
    | _ => exact h.symm

/-- An item that is stored is one of the batch, in its place. -/
theorem itemPut_of_stores {stored : List StoredSessionEvent} {s : StoredSessionEvent}
    (h : Stores sessionId events stored) (hs : s ∈ stored) {p : Put Id ItemRow}
    (hp : itemPut s = some p) :
    ∃ item placed : Item, (.itemAdded item ∈ events ∨ .itemChanged item ∈ events) ∧
      placed.placedAt 0 = item.placedAt 0 ∧
        p = ⟨placed.id, insertItem s.sessionId placed, updateItem placed⟩ := by
  obtain ⟨event, hevent, heq⟩ := h.mem s hs
  obtain ⟨session, number, stamp, command, stored⟩ := s
  cases stored with
  | itemAdded placed =>
    cases hp
    cases event with
    | itemAdded item =>
      have hplaced := SessionEvent.itemAdded.inj heq
      exact ⟨item, placed, .inl hevent, hplaced, rfl⟩
    | _ => cases heq
  | itemChanged placed =>
    cases hp
    cases event with
    | itemChanged item =>
      have hplaced := SessionEvent.itemChanged.inj heq
      exact ⟨item, placed, .inr hevent, hplaced, rfl⟩
    | _ => cases heq
  | _ => cases hp

/-- An item of the batch is stored under its id. -/
theorem exists_itemPut {stored : List StoredSessionEvent} (h : Stores sessionId events stored)
    (hitem : .itemAdded item ∈ events ∨ .itemChanged item ∈ events) :
    ∃ s ∈ stored, ∃ p, itemPut s = some p ∧ p.key = item.id := by
  have hevent : ∀ event ∈ events, event = .itemAdded item ∨ event = .itemChanged item →
      ∃ s ∈ stored, ∃ p, itemPut s = some p ∧ p.key = item.id := by
    intro event hevent hof
    obtain ⟨⟨session, number, stamp, command, stored⟩, hs, heq⟩ := h.exists_mem event hevent
    refine ⟨_, hs, ?_⟩
    rcases hof with rfl | rfl
    · cases stored with
      | itemAdded placed =>
        have hplaced := congrArg Item.id (SessionEvent.itemAdded.inj heq)
        exact ⟨_, rfl, hplaced⟩
      | _ => cases heq
    · cases stored with
      | itemChanged placed =>
        have hplaced := congrArg Item.id (SessionEvent.itemChanged.inj heq)
        exact ⟨_, rfl, hplaced⟩
      | _ => cases heq
  exact hitem.elim (fun h => hevent _ h (.inl rfl)) fun h => hevent _ h (.inr rfl)

/-- The row is one that an item of the batch writes. -/
def Wrote (events : List SessionEvent) (id : Id) (row : ItemRow) : Prop :=
  ∃ item, (.itemAdded item ∈ events ∨ .itemChanged item ∈ events) ∧ item.id = id ∧
    row.turnId = item.turnId ∧ row.kind = item.body.kind ∧ row.status = item.status

/-- An item's row in the end is one that the batch writes, or stood before. -/
theorem items_append (hcloses : Closes db turn work last events)
    (h : append db ⟨turn.sessionId, events, commandId, now, clock⟩ = some db')
    {row : ItemRow} (hrow : db'.items id = some row) : Wrote events id row ∨
    (db.items id = some row ∧ ∀ item, .itemAdded item ∈ events ∨ .itemChanged item ∈ events →
      item.id = id → row.sessionId ≠ turn.sessionId) := by
  obtain ⟨stored, hstores, rfl⟩ := hcloses.stored h
  have hget : ∀ db, ∀ s ∈ stored, (persist now db s).items =
      putRow ItemRow.sessionId turn.sessionId db.items (itemPut s) := by
    intro db s hs
    rw [← hstores.sessionId_eq s hs]
    refine items_persist fun itemId field text at' htext => ?_
    obtain ⟨event, hevent, heq⟩ := hstores.mem s hs
    rw [htext] at heq
    have hsame : event = .itemTextAppended itemId field text at' :=
      eq_of_unplaced heq (fun item h => by cases h) (fun item h => by cases h)
    exact hcloses.ending _ (hsame ▸ hevent)
  have hput : ∀ s ∈ stored, ∀ p, itemPut s = some p → Wrote events p.key p.insert ∧
      ∀ row, Wrote events p.key (p.set row) := by
    intro s hs p hp
    obtain ⟨item, placed, hitem, hsame, rfl⟩ := itemPut_of_stores hstores hs hp
    have hid := (congrArg Item.id hsame).symm
    have hturn := congrArg Item.turnId hsame
    have hkind := congrArg (fun item => item.body.kind) hsame
    have hstatus := congrArg Item.status hsame
    exact ⟨⟨item, hitem, hid, hturn, hkind, hstatus⟩,
      fun row => ⟨item, hitem, hid, hturn, hkind, hstatus⟩⟩
  rcases row_of_persists hget hput hrow with hwritten | ⟨hkept, hnone⟩
  · exact .inl hwritten
  · refine .inr ⟨hkept, fun item hitem hid => ?_⟩
    obtain ⟨s, hs, p, hp, hkey⟩ := exists_itemPut hstores hitem
    exact hnone s hs p hp (hkey.trans hid)

section

variable {ρ : Type} {ownerOf : ρ → Id} (get : Db → Id → Option ρ)
  (put : StoredSessionEvent → Option (Put Id ρ)) (keyOf : SessionEvent → Option Id)
  (Q : Id → ρ → Prop)

/-- What the batch does to a table of other rows than items: a row in the end is one that the batch
writes, or stood before, and a key that it does not write keeps its row. -/
theorem row_append (hcloses : Closes db turn work last events)
    (h : append db ⟨turn.sessionId, events, commandId, now, clock⟩ = some db')
    (hget : ∀ db s, s.sessionId = turn.sessionId →
      get (persist now db s) = putRow ownerOf turn.sessionId (get db) (put s))
    (hkey : ∀ s, (put s).map Put.key = keyOf s.event)
    (hplain : ∀ item, keyOf (.itemAdded item) = none ∧ keyOf (.itemChanged item) = none)
    (hput : ∀ s, s.event ∈ events → ∀ p, put s = some p →
      Q p.key p.insert ∧ ∀ row, Q p.key (p.set row)) (id : Id) :
    (∀ row, get db' id = some row → Q id row ∨ get db id = some row ∧
      ∀ event ∈ events, keyOf event = some id → ownerOf row ≠ turn.sessionId) ∧
    ((∀ event ∈ events, keyOf event ≠ some id) → get db' id = get db id) := by
  obtain ⟨stored, hstores, rfl⟩ := hcloses.stored h
  have hsame : ∀ {event event' : SessionEvent} {key : Id}, keyOf event = some key →
      unplaced event = unplaced event' → event' = event := fun hevent heq =>
    eq_of_unplaced heq (fun item hitem => by rw [hitem, (hplain item).1] at hevent; cases hevent)
      fun item hitem => by rw [hitem, (hplain item).2] at hevent; cases hevent
  have hwrites : ∀ s ∈ stored, ∀ p, put s = some p →
      s.event ∈ events ∧ keyOf s.event = some p.key := by
    intro s hs p hp
    have hevent : keyOf s.event = some p.key := by rw [← hkey, hp, map_some]
    obtain ⟨event, hmem, heq⟩ := hstores.mem s hs
    exact ⟨hsame hevent heq ▸ hmem, hevent⟩
  have hrows := fun db s hs => hget db s (hstores.sessionId_eq s hs)
  constructor
  · intro row hrow
    rcases row_of_persists hrows (fun s hs p hp => hput s (hwrites s hs p hp).1 p hp) hrow with
      hwritten | ⟨hkept, hnone⟩
    · exact .inl hwritten
    · refine .inr ⟨hkept, fun event hevent hid => ?_⟩
      obtain ⟨s, hs, heq⟩ := hstores.exists_mem _ hevent
      have hwrite := (hkey s).trans (congrArg keyOf (hsame hid heq.symm))
      obtain ⟨p, hp, hpid⟩ := map_eq_some_iff.mp (hwrite.trans hid)
      exact hnone s hs p hp hpid
  · refine fun hnone => row_stays hrows fun s hs p hp hid => ?_
    obtain ⟨hmem, hevent⟩ := hwrites s hs p hp
    exact hnone _ hmem (hid ▸ hevent)

end

def requestKey : SessionEvent → Option Id
  | .requestChanged request => some request.id
  | _ => none

def attemptKey : SessionEvent → Option Id
  | .attemptChanged attempt => some attempt.id
  | _ => none

def turnKey : SessionEvent → Option Id
  | .turnChanged turn => some turn.id
  | _ => none

section

variable (hcloses : Closes db turn work last events)
  (h : append db ⟨turn.sessionId, events, commandId, now, clock⟩ = some db')

include hcloses h

/-- A request's row in the end is closed, or stood before. -/
theorem requests_append (id : Id) :
    (∀ row, db'.requests turn.sessionId id = some row → row.status ≠ .pending ∨
      db.requests turn.sessionId id = some row ∧
        ∀ event ∈ events, requestKey event = some id → turn.sessionId ≠ turn.sessionId) ∧
    ((∀ event ∈ events, requestKey event ≠ some id) →
      db'.requests turn.sessionId id = db.requests turn.sessionId id) := by
  refine row_append (fun db => db.requests turn.sessionId) requestPut requestKey
    (fun _ row => row.status ≠ .pending) hcloses h (fun db s hs => ?_) ?_ (fun _ => ⟨rfl, rfl⟩) ?_
      id
  · rw [← hs]
    exact requests_persist
  · rintro ⟨session, number, stamp, command, event⟩
    cases event <;> rfl
  · rintro ⟨session, number, stamp, command, event⟩ hevent p hp
    cases event with
    | requestChanged request =>
      cases hp
      exact ⟨(hcloses.ending _ hevent).1, fun row => (hcloses.ending _ hevent).1⟩
    | _ => cases hp

theorem requests_append_other (hsession : sessionId ≠ turn.sessionId) :
    db'.requests sessionId = db.requests sessionId := by
  obtain ⟨stored, hstores, rfl⟩ := hcloses.stored h
  refine funext fun id => @row_stays _ _ _ (fun _ => sessionId) (fun db => db.requests sessionId)
    (fun _ => none) sessionId now stored db (fun db s hs => ?_) id fun s hs p hp => by cases hp
  exact requests_persist_other (hstores.sessionId_eq s hs ▸ hsession)

/-- The turn's row is as its last change in the batch says. -/
theorem turns_append (hhoused : Housed home db) (hhome : turn.sessionId = home turn.id)
    {row : TurnRow} (hrow : db'.turns turn.id = some row) :
    row.status = last.status ∧ row.activeAttemptId = last.activeAttemptId := by
  have hrows := row_append Db.turns (turnPut now) turnKey (fun id row => id = turn.id →
      row.status = last.status ∧ row.activeAttemptId = last.activeAttemptId) hcloses h
    (fun db s hs => hs ▸ turns_persist) ?_ (fun _ => ⟨rfl, rfl⟩) ?_ turn.id
  · rcases hrows.1 row hrow with hwritten | ⟨hkept, hnone⟩
    · exact hwritten rfl
    · exact absurd ((hhoused.turns turn.id row hkept).2.trans hhome.symm)
        (hnone _ hcloses.ends (congrArg some hcloses.last_id))
  · rintro ⟨session, number, stamp, command, event⟩
    cases event <;> rfl
  · rintro ⟨session, number, stamp, command, event⟩ hevent p hp
    cases event with
    | turnChanged other =>
      cases hp
      have hsame := (hcloses.ending _ hevent).2
      exact ⟨fun hid => hsame hid ▸ ⟨rfl, rfl⟩, fun row hid => hsame hid ▸ ⟨rfl, rfl⟩⟩
    | _ => cases hp

/-- An attempt's row in the end has ended, or stood before in another session. -/
theorem attempts_append {row : AttemptRow} (hrow : db'.attempts id = some row) :
    stillRuns row.status = false ∨ db.attempts id = some row ∧
      ∀ event ∈ events, attemptKey event = some id → row.sessionId ≠ turn.sessionId := by
  refine (row_append Db.attempts attemptPut attemptKey (fun _ row => stillRuns row.status = false)
    hcloses h (fun db s hs => hs ▸ attempts_persist) ?_ (fun _ => ⟨rfl, rfl⟩) ?_ id).1 row hrow
  · rintro ⟨session, number, stamp, command, event⟩
    cases event <;> rfl
  · rintro ⟨session, number, stamp, command, event⟩ hevent p hp
    cases event with
    | attemptChanged attempt =>
      cases hp
      exact ⟨hcloses.ending _ hevent, fun row => hcloses.ending _ hevent⟩
    | _ => cases hp

end

/-! ## What a turn that ended leaves -/

/-- A question that does not block, and waits for its answer. -/
def Outlives (row : RequestRow) : Prop :=
  row.status = .pending ∧ row.blocking = false ∧ row.payload.kind = .question

theorem mem_outliving {requests : List RequestRow} : id ∈ outliving requests ↔
    ∃ row ∈ requests, row.requestId = id ∧ row.blocking = false ∧ row.payload.kind = .question := by
  simp [outliving, requestFromRow, and_assoc, and_comm]

/-- Nothing of the turn is open in the log, but for the questions that outlive it. -/
structure LogClosed (db : Db) (turnId : Id) : Prop where
  items : ∀ id row, db.items id = some row → row.turnId = some turnId →
    isInputKind row.kind = false → row.status = .inProgress →
    ∃ requestId sessionId request, row.payload.item.body = .request requestId ∧
      db.requests sessionId requestId = some request ∧ request.turnId = some turnId ∧
      Outlives request
  requests : ∀ sessionId id row, db.requests sessionId id = some row → row.turnId = some turnId →
    row.status = .pending → Outlives row

/-- **A batch that closes a turn's open work leaves none.** -/
theorem logClosed_of_closes (hhoused : Housed home db) (hhome : turn.sessionId = home turn.id)
    (hcloses : Closes db turn work last events)
    (h : append db ⟨turn.sessionId, events, commandId, now, clock⟩ = some db') :
    LogClosed db' turn.id := by
  constructor
  · intro id row hrow hturn hkind hstatus
    rcases items_append hcloses h hrow with
      ⟨item, hitem, -, hturn', hkind', hstatus'⟩ | ⟨hkept, hnone⟩
    · have hworking : Working turn.id item := ⟨hturn' ▸ hturn, hkind' ▸ hkind, hstatus' ▸ hstatus⟩
      rcases hitem with hitem | hitem
      · exact absurd hworking (hcloses.ending _ hitem)
      · exact absurd hworking (hcloses.ending _ hitem)
    · obtain ⟨-, hid, -, hsession⟩ := hhoused.items id row hkept
      have hmem : row ∈ work.items := (work.mem_items row).mpr ⟨⟨id, hkept⟩, hturn, hstatus, hkind⟩
      rcases houtlives : isRequestOf (outliving work.requests) row.payload.item with _ | _
      · obtain ⟨item, hitem, heq⟩ := hcloses.cancelled row hmem houtlives
        exact absurd ((hsession turn.id hturn).trans hhome.symm)
          (hnone item (.inr hitem) (heq.trans hid))
      · unfold isRequestOf at houtlives
        split at houtlives
        · next requestId hbody =>
          have hin : requestId ∈ outliving work.requests := by simpa using houtlives
          obtain ⟨request, hrequest, hrequestId, hblocking, hquestion⟩ := mem_outliving.mp hin
          obtain ⟨⟨key, hstored⟩, hof, hpending⟩ := (work.mem_requests request).mp hrequest
          obtain rfl : key = requestId :=
            ((hhoused.requests turn.sessionId key request hstored).1).symm.trans hrequestId
          refine ⟨key, turn.sessionId, request, hbody, ?_, hof, hpending, hblocking, hquestion⟩
          rw [(requests_append hcloses h key).2 fun event hevent hkey => ?_]
          · exact hstored
          · cases event with
            | requestChanged other =>
              obtain rfl := some.inj hkey
              exact (hcloses.ending _ hevent).2 hin
            | _ => cases hkey
        · cases houtlives
  · intro sessionId id row hrow hturn hstatus
    by_cases hsession : sessionId = turn.sessionId
    · subst hsession
      rcases (requests_append hcloses h id).1 row hrow with hclosed | ⟨hkept, hnone⟩
      · exact absurd hstatus hclosed
      · have hmem : row ∈ work.requests := (work.mem_requests row).mpr ⟨⟨id, hkept⟩, hturn, hstatus⟩
        have hid := (hhoused.requests turn.sessionId id row hkept).1
        by_cases hin : row.requestId ∈ outliving work.requests
        · obtain ⟨other, hother, hsame, hblocking, hquestion⟩ := mem_outliving.mp hin
          obtain ⟨⟨key, hstored⟩, -, -⟩ := (work.mem_requests other).mp hother
          have hkey := (hhoused.requests turn.sessionId key other hstored).1
          obtain rfl : key = id := hkey.symm.trans (hsame.trans hid)
          obtain rfl : other = row := some.inj (hstored.symm.trans hkept)
          exact ⟨hstatus, hblocking, hquestion⟩
        · obtain ⟨request, hrequest, heq⟩ := hcloses.expired row hmem hin
          exact absurd rfl (hnone _ hrequest (congrArg some (heq.trans hid)))
    · rw [requests_append_other hcloses h hsession] at hrow
      exact absurd (((hhoused.requests sessionId id row hrow).2 turn.id hturn).trans hhome.symm)
        hsession

/-! ## The events of an end -/

theorem ending_closeOpenWork {at' : Stamp}
    (h : event ∈ closeOpenWork work.requests work.items reason at') : Ending work last event := by
  rcases mem_append.mp h with h | h
  · obtain ⟨row, -, hsome⟩ := mem_filterMap.mp h
    split at hsome
    · cases hsome
    · cases hsome
      exact fun hworking => by cases hworking.2.2
  · obtain ⟨row, -, hsome⟩ := mem_filterMap.mp h
    split at hsome
    · cases hsome
    · next hnot =>
      cases hsome
      exact ⟨fun hpending => (by cases hpending), fun hin => hnot (contains_iff_mem.mpr hin)⟩

/-- **A batch with the events that close the turn's work closes it**, where each is one of an
end. -/
theorem closes_of {at' : Stamp}
    (hclose : ∀ event ∈ closeOpenWork work.requests work.items reason at', event ∈ events)
    (hends : .turnChanged last ∈ events) (hid : last.id = turn.id)
    (hending : ∀ event ∈ events, Ending work last event) : Closes db turn work last events := by
  refine ⟨hending, hends, hid, fun row hrow hnot => ?_, fun row hrow hnot => ?_⟩
  · refine ⟨cancelled row.payload.item at', hclose _ (mem_append_left _
      (mem_filterMap.mpr ⟨row, hrow, ?_⟩)), rfl⟩
    exact if_neg (by rw [Bool.not_eq_true]; exact hnot)
  · refine ⟨expired (requestFromRow row) reason at', hclose _ (mem_append_right _
      (mem_filterMap.mpr ⟨row, hrow, ?_⟩)), rfl⟩
    exact if_neg fun hin => hnot (contains_iff_mem.mp hin)

variable {ownersOf : Item → Bool} {steeredTurnId : Id → Id → Id} {turnId : Id}

/-- What is queued again is queued in turns with ids of their own. -/
def Requeued (steeredTurnId : Id → Id → Id) (turn : Turn) : SessionEvent → Prop
  | .turnChanged next => next.status = .queued ∧ ∃ itemId, next.id = steeredTurnId turn.id itemId
  | .itemChanged item => isInputKind item.body.kind = true
  | _ => False

theorem asInput_kind (item : Item) (turnId : Id) (at' : Stamp) :
    (asInput item turnId at').body.kind = item.body.kind := by
  unfold asInput
  split
  · cases item.body <;> rfl
  · rfl

theorem requeued_next {at' : Stamp} {requeue : Requeue} (hitem : isInputKind item.body.kind = true)
    (h : ∀ event ∈ requeue.events, Requeued steeredTurnId turn event) :
    ∀ event ∈ (requeue.next ownersOf steeredTurnId turn at' item).events,
      Requeued steeredTurnId turn event := by
  have hchanged : ∀ id, Requeued steeredTurnId turn (.itemChanged (asInput item id at')) :=
    fun id => (congrArg isInputKind (asInput_kind item id at')).trans hitem
  have halone : ∀ event ∈ (Requeue.next.alone ownersOf steeredTurnId turn at' requeue item).events,
      Requeued steeredTurnId turn event := by
    intro event hevent
    rcases mem_append.mp hevent with hevent | hevent
    · exact h event hevent
    · rcases hevent with _ | ⟨_, hevent⟩
      · exact ⟨rfl, item.id, rfl⟩
      · obtain rfl := mem_singleton.mp hevent
        exact hchanged _
  unfold Requeue.next
  split
  · next id owned hnotifications =>
    split
    · intro event hevent
      rcases mem_append.mp hevent with hevent | hevent
      · exact h event hevent
      · obtain rfl := mem_singleton.mp hevent
        exact hchanged id
    · exact halone
  · exact halone

theorem requeued_of_requeueSteers (hhoused : Housed home db)
    {runners : Id → Option RunnerState} {unread : Unread db turn} {at' : Stamp} :
    ∀ event ∈ requeueSteers ownersOf steeredTurnId runners turn unread at',
      Requeued steeredTurnId turn event := by
  have hfold : ∀ (rows : List ItemRow) (requeue : Requeue),
      (∀ row ∈ rows, isInputKind row.payload.item.body.kind = true) →
      (∀ event ∈ requeue.events, Requeued steeredTurnId turn event) →
      ∀ event ∈ (rows.foldl (fun requeue row =>
        Requeue.next ownersOf steeredTurnId turn at' requeue (itemFromRow row).item)
          requeue).events,
        Requeued steeredTurnId turn event := by
    intro rows
    induction rows with
    | nil => exact fun requeue _ h => h
    | cons row rows ih =>
      intro requeue hrows h
      exact ih _ (List.forall_mem_cons.mp hrows).2
        (requeued_next (hrows row (.head _)) h)
  refine hfold _ _ (fun row hrow => ?_) fun event hevent => absurd hevent not_mem_nil
  obtain ⟨⟨id, hstored⟩, -, hkind, -⟩ :=
    (unread.mem_steered row).mp (mem_filter.mp hrow).1
  rw [← (hhoused.items id row hstored).2.2.1]
  exact hkind

theorem ending_of_requeued (hfresh : ∀ turnId itemId, steeredTurnId turnId itemId ≠ turnId)
    (h : Requeued steeredTurnId turn event) : Ending work last event := by
  cases event with
  | turnChanged next =>
    obtain ⟨hqueued, itemId, hnext⟩ := h
    exact ⟨(congrArg TurnStatus.active hqueued).trans rfl,
      fun hid => absurd (hnext.symm.trans hid) (hfresh _ _)⟩
  | itemChanged item => exact fun hworking => by rw [Requeued, hworking.2.1] at h; cases h
  | _ => exact h.elim

theorem ending_threadEvents {thread : Option ProviderThreadRow} {at' : Stamp}
    (h : event ∈ threadEvents thread turn at') : Ending work last event := by
  rw [threadEvents, mem_toList, map_eq_some_iff] at h
  obtain ⟨row, -, rfl⟩ := h
  exact trivial

/-! ## The queue's columns -/

theorem isOpen_markCommands {commands : List TurnCommand} {command : TurnCommand}
    (h : command ∈ markCommands commands ((openCommands commands turnId).map TurnCommand.id)
      .dropped)
    (hturn : command.turnId = turnId) : command.status.isOpen = false := by
  obtain ⟨old, hold, rfl⟩ := mem_map.mp h
  by_cases hmark : ((openCommands commands turnId).map TurnCommand.id).contains old.id &&
      old.status.isOpen
  · rw [if_pos hmark]
    rfl
  · rw [if_neg hmark] at hturn ⊢
    by_contra hopen
    have hopen := (Bool.not_eq_false _).mp hopen
    refine hmark (Bool.and_eq_true_iff.mpr ⟨contains_iff_mem.mpr ?_, hopen⟩)
    refine mem_map_of_mem (mem_filter.mpr ⟨hold, ?_⟩)
    rw [decide_eq_true hturn, hopen]
    rfl

theorem setTurn_self {set : TurnRow → TurnRow} {row : TurnRow}
    (h : (setTurn db turnId set).turns turnId = some row) :
    ∃ old, db.turns turnId = some old ∧ row = set old := by
  rw [setTurn] at h
  simp only [update_self, map_eq_some_iff] at h
  obtain ⟨old, hold, rfl⟩ := h
  exact ⟨old, hold, rfl⟩

/-- **Nothing of the turn is open**: in the log, among its commands and on its lease. -/
structure Closed (store : Store) (turnId : Id) : Prop extends LogClosed store.log turnId where
  commands : ∀ command ∈ store.commands, command.turnId = turnId → command.status.isOpen = false
  lease : ∀ row, store.log.turns turnId = some row →
    row.leaseOwner = none ∧ row.leaseToken = none ∧ row.leaseExpiresAt = none

/-- The turn's active attempt has ended. -/
def AttemptEnded (db : Db) (turnId : Id) : Prop :=
  ∀ row, db.turns turnId = some row → ∀ id, row.activeAttemptId = some id →
    ∀ attempt, db.attempts id = some attempt → stillRuns attempt.status = false

/-- The attempt that is handed over is the turn's active one, with its status as it is stored. -/
def Handed (db : Db) (turn : Turn) (attempt : Attempt) : Prop :=
  ∀ id, turn.activeAttemptId = some id → ∀ row, db.attempts id = some row →
    id = attempt.id ∧ row.turnId = turn.id ∧ row.status = attempt.status

variable {store store' : Store}

/-! ## Settling -/

section

variable {input : SettleInput} {work : OpenWork store.log input.turn}
  {unread : Unread store.log input.turn} {transient : Bool}

theorem settled_idle (transient : Bool) : (input.settled transient).status.active = false := by
  rw [SettleInput.settled]
  split
  · rfl
  · split
    · rfl
    · cases input.status <;> rfl

theorem closes_settleEvents (hhoused : Housed home store.log)
    (hfresh : ∀ turnId itemId, steeredTurnId turnId itemId ≠ turnId) :
    Closes store.log input.turn work (input.settled transient)
      (settleEvents ownersOf steeredTurnId store input transient work unread) := by
  refine @closes_of _ _ _ _ _ "The turn ended before it was answered." (toISOString input.clock)
    (fun event hevent => by simp [settleEvents, hevent]) (by simp [settleEvents]) rfl
    fun event h => ?_
  simp only [settleEvents, mem_append, mem_singleton] at h
  rcases h with ((((h | h) | rfl) | h) | h) | h
  · rw [SettleInput.attemptEvents] at h
    split at h
    · obtain rfl := mem_singleton.mp h
      show stillRuns input.endedAttempt.status = false
      rw [SettleInput.endedAttempt]
      cases input.status <;> rfl
    · cases h
  · exact ending_closeOpenWork h
  · exact ⟨settled_idle transient, fun _ => rfl⟩
  · split at h
    · cases h
    · exact ending_of_requeued hfresh (requeued_of_requeueSteers hhoused event h)
  · exact ending_threadEvents h
  · split at h
    · obtain rfl := mem_singleton.mp h
      exact trivial
    · cases h

/-- What a settling that commits appends, and what it then does to the turn's row. -/
theorem settle_log (h : settle ownersOf steeredTurnId store input work unread = some store') :
    ∃ log transient, append store.log ⟨input.turn.sessionId,
          settleEvents ownersOf steeredTurnId store input transient work unread,
          none, input.began, input.stamped⟩ = some log ∧
      (∀ row, store.log.turns input.turn.id = some row → row.cancellationRequestedAt.isSome →
        (input.settled transient).status ≠ .queued) ∧
      store' = { store with
          log := release
            (if input.transient then scheduleRetry log input.turn.id input.retryAt else log)
            input.turn.id
          commands := markCommands store.commands
            ((openCommands store.commands input.turn.id).map TurnCommand.id) .dropped } := by
  rw [settle] at h
  split at h
  · obtain ⟨log, hlog, rfl⟩ := map_eq_some_iff.mp h
    refine ⟨log, _, hlog, fun row hrow hstop => ?_, rfl⟩
    rw [hrow, any_some, hstop, Bool.not_true, Bool.and_false]
    rw [SettleInput.settled]
    split
    · cases ‹false = true›
    · split
      · exact fun heq => by cases heq
      · cases input.status <;> exact fun heq => by cases heq
  · cases h

/-- **A turn that settled leaves no open work**: nothing of it is in progress but the questions that
outlive it, none of its requests blocks, its commands are dropped and its lease is let go of. A turn
that was asked to stop is not queued again, and the attempt that was handed over as stored has
ended. -/
theorem settle_closed (hhoused : Housed home store.log)
    (hfresh : ∀ turnId itemId, steeredTurnId turnId itemId ≠ turnId)
    (hhome : input.turn.sessionId = home input.turn.id)
    (h : settle ownersOf steeredTurnId store input work unread = some store') :
    Closed store' input.turn.id ∧
    (∀ row, store.log.turns input.turn.id = some row → row.cancellationRequestedAt.isSome →
      ∀ row', store'.log.turns input.turn.id = some row' → row'.status ≠ .queued) ∧
    (Handed store.log input.turn input.attempt → AttemptEnded store'.log input.turn.id) := by
  obtain ⟨log, transient, hlog, hstopped, rfl⟩ := settle_log h
  have hcloses := @closes_settleEvents home ownersOf steeredTurnId store input work unread
    transient hhoused hfresh
  have hclosed := logClosed_of_closes hhoused hhome hcloses hlog
  have hlast : ∀ row, log.turns input.turn.id = some row →
      row.status = (input.settled transient).status ∧
        row.activeAttemptId = input.turn.activeAttemptId :=
    fun row => turns_append hcloses hlog hhoused hhome
  have hturn : ∀ row, (release (if input.transient then
      scheduleRetry log input.turn.id input.retryAt else log) input.turn.id).turns input.turn.id =
        some row → row.leaseOwner = none ∧ row.leaseToken = none ∧ row.leaseExpiresAt = none ∧
          row.status = (input.settled transient).status ∧
            row.activeAttemptId = input.turn.activeAttemptId := by
    intro row hrow
    obtain ⟨old, hold, rfl⟩ := setTurn_self hrow
    refine ⟨rfl, rfl, rfl, ?_⟩
    split at hold
    · obtain ⟨older, holder, rfl⟩ := setTurn_self hold
      exact hlast older holder
    · exact hlast old hold
  have hkept : (release (if input.transient then
      scheduleRetry log input.turn.id input.retryAt else log) input.turn.id).attempts =
        log.attempts := by
    split <;> rfl
  refine ⟨⟨⟨?_, ?_⟩, fun command => isOpen_markCommands,
    fun row hrow => ?_⟩, fun row hrow hstop row' hrow' => ?_, fun hhanded row hrow id hid => ?_⟩
  · have hitems := hclosed.items
    split <;> exact hitems
  · have hrequests := hclosed.requests
    split <;> exact hrequests
  · obtain ⟨howner, htoken, hexpires, -⟩ := hturn row hrow
    exact ⟨howner, htoken, hexpires⟩
  · rw [(hturn row' hrow').2.2.2.1]
    exact hstopped row hrow hstop
  · intro attempt hattempt
    rw [(hturn row hrow).2.2.2.2] at hid
    replace hattempt : log.attempts id = some attempt := hkept ▸ hattempt
    rcases attempts_append hcloses hlog hattempt with hended | ⟨hstored, hnone⟩
    · exact hended
    · obtain ⟨rfl, hof, hstatus⟩ := hhanded id hid attempt hstored
      rw [hstatus]
      by_contra hruns
      have hruns := (Bool.not_eq_false _).mp hruns
      have hends : .attemptChanged input.endedAttempt ∈ input.attemptEvents := by
        rw [SettleInput.attemptEvents, if_pos hruns]
        exact mem_singleton_self _
      exact hnone (.attemptChanged input.endedAttempt) (by simp [settleEvents, hends]) rfl
        (((hhoused.attempts _ attempt hstored).trans (by rw [hof])).trans hhome.symm)

end

/-! ## Losing an attempt -/

section

variable {message : String → Json} {strong : Json → Bool} {noticeId continuationId : Id → Id}
  {input : LoseInput} {row : TurnRow} {turn : Turn} {work : OpenWork store.log turn}
  {unread : Unread store.log turn} {later : Later store.log turn}

def LoseInput.lostAttempt (message : String → Json) (input : LoseInput) : Attempt :=
  { input.attempt with
    status := .lost
    completedAt := some (toISOString input.clock)
    error := some (message input.reason) }

section

variable (hhoused : Housed home store.log) (hfresh : ∀ turnId itemId, steeredTurnId turnId itemId ≠
  turnId) (hcontinuation : ∀ turnId, continuationId turnId ≠ turnId)
include hhoused hfresh hcontinuation

theorem closes_loseEvents :
    Closes store.log turn work (lostTurn message turn input.reason (toISOString input.clock))
      (loseEvents ownersOf steeredTurnId message strong noticeId continuationId store input turn
        work unread later) := by
  refine @closes_of _ _ _ _ _ "The agent that asked stopped before it was answered."
    (toISOString input.clock) (fun event hevent => by simp [loseEvents, hevent])
    (by simp [loseEvents]) rfl fun event h => ?_
  simp only [loseEvents, mem_append, mem_singleton] at h
  rcases h with ((((rfl | h) | rfl) | h) | h) | h
  · exact rfl
  · exact ending_closeOpenWork h
  · exact ⟨rfl, fun _ => rfl⟩
  · exact ending_of_requeued hfresh (requeued_of_requeueSteers hhoused event h)
  · exact ending_threadEvents h
  · split at h
    · rcases h with _ | ⟨_, h⟩
      · exact fun hworking => by cases hworking.2.2
      · obtain rfl := mem_singleton.mp h
        exact ⟨rfl, fun hid => absurd hid (hcontinuation _)⟩
    · cases h

/-- **A turn whose attempt was lost leaves no open work**, is interrupted, and its active attempt
has ended. -/
theorem lose_closed {work : OpenWork store.log (turnFromRow input.began row)}
    {unread : Unread store.log (turnFromRow input.began row)}
    {later : Later store.log (turnFromRow input.began row)}
    (hrow : store.log.turns input.turnId = some row)
    (h : lose ownersOf steeredTurnId message strong noticeId continuationId store input row work
      unread later = some store') :
    Closed store' input.turnId ∧
    (∀ row', store'.log.turns input.turnId = some row' → row'.status = .interrupted) ∧
    ((∀ id, row.activeAttemptId = some id → ∀ attempt, store.log.attempts id = some attempt →
      id = input.attempt.id ∧ attempt.turnId = input.turnId) →
        AttemptEnded store'.log input.turnId) := by
  obtain ⟨hid, hsession⟩ := hhoused.turns input.turnId row hrow
  have hhome : (turnFromRow input.began row).sessionId = home (turnFromRow input.began row).id := by
    rw [← hid] at hsession
    exact hsession
  rw [← hid]
  simp only [lose] at h
  split at h
  · obtain ⟨log, hlog, rfl⟩ := map_eq_some_iff.mp h
    have hcloses := @closes_loseEvents home ownersOf steeredTurnId store message strong noticeId
      continuationId input _ work unread later hhoused hfresh hcontinuation
    have hclosed := logClosed_of_closes hhoused hhome hcloses hlog
    refine ⟨⟨⟨hclosed.items, hclosed.requests⟩,
      fun command => isOpen_markCommands, fun final hfinal => ?_⟩,
      fun final hfinal => ?_, fun hactive final hfinal id hactiveId => ?_⟩
    · obtain ⟨old, -, rfl⟩ := setTurn_self hfinal
      exact ⟨rfl, rfl, rfl⟩
    · obtain ⟨old, hold, rfl⟩ := setTurn_self hfinal
      exact (turns_append hcloses hlog hhoused hhome hold).1
    · intro attempt hattempt
      obtain ⟨old, hold, rfl⟩ := setTurn_self hfinal
      replace hactiveId : row.activeAttemptId = some id :=
        (turns_append hcloses hlog hhoused hhome hold).2.symm.trans hactiveId
      rcases attempts_append hcloses hlog hattempt with hended | ⟨hstored, hnone⟩
      · exact hended
      · obtain ⟨rfl, hof⟩ := hactive id hactiveId attempt hstored
        refine absurd ?_ (hnone (.attemptChanged (input.lostAttempt message))
          (by simp [loseEvents, LoseInput.lostAttempt]) rfl)
        exact (hhoused.attempts _ attempt hstored).trans (by rw [hof]; exact hhome.symm)
  · cases h

end

end

end

/-! ## A turn that asks -/

section

variable {ρ : Type}

/-- A table of one row. -/
def single (key : Id) (row : ρ) : Id → Option ρ := fun id => if id = key then some row else none

theorem exists_single {key : Id} {row row' : ρ} : (∃ id, single key row id = some row') ↔
    row = row' := by
  constructor
  · rintro ⟨id, h⟩
    rw [single] at h
    split at h
    · exact some.inj h
    · cases h
  · rintro rfl
    exact ⟨key, if_pos rfl⟩

theorem each_single {P : Id → ρ → Prop} {key : Id} {row : ρ} (h : P key row) :
    Each P (single key row) := by
  intro id other hother
  rw [single] at hother
  split at hother
  · cases hother
    subst id
    exact h
  · cases hother

end

def askingTurn : Turn where
  id := 1
  sessionId := 0
  ordinal := 0
  status := .running
  inputItemId := none
  dispatch := .queue
  priority := 0
  activity := none
  activityAt := none
  providerRetry := none
  attemptCount := 1
  activeAttemptId := some 2
  providerThreadId := none
  retryAt := none
  cancellationRequested := true
  error := none
  outcome := none
  checkpoint := ⟨none, none⟩
  continuationOf := none
  createdAt := toISOString 0
  startedAt := none
  completedAt := none
  updatedAt := toISOString 0

def askingAttempt (status : AttemptStatus) : Attempt where
  id := 2
  turnId := 1
  sessionId := 0
  ordinal := 0
  reason := .initial
  status := status
  providerThreadId := none
  nativeTurnRef := none
  error := none
  createdAt := toISOString 0
  startedAt := none
  completedAt := none

def askedItem : Item where
  id := 3
  sessionId := 0
  turnId := some 1
  attemptId := some 2
  parentItemId := none
  position := 0
  status := .inProgress
  nativeRef := none
  createdAt := toISOString 0
  updatedAt := toISOString 0
  startedAt := none
  endedAt := none
  body := .request 4

/-- A question that does not block. -/
def askedRequest : RuntimeRequest where
  id := 4
  sessionId := 0
  turnId := some 1
  attemptId := some 2
  itemId := some 3
  kind := .question
  status := .pending
  answerable := true
  blocking := false
  asked := ⟨""⟩
  expiresAt := none
  response := none
  resolvedBy := none
  reason := none
  createdAt := toISOString 0
  resolvedAt := none

def askingRow : TurnRow :=
  { insertTurn 0 0 (toISOString 0) askingTurn with
    leaseOwner := some "machine"
    leaseToken := some 7
    leaseExpiresAt := some 60 }

/-- The turn's attempt is preparing. -/
def askingStore : Store where
  log :=
    { Db.empty with
      eventSequence := single 0 0
      turns := single 1 askingRow
      attempts := single 2 (insertAttempt 0 (askingAttempt .preparing))
      items := single 3 (insertItem 0 askedItem)
      requests := fun sessionId => if sessionId = 0 then
        single 4 (insertRequest 0 (toISOString 0) askedRequest) else fun _ => none }
  runners := fun _ => none
  commands := [⟨5, 1, .sent⟩]

/-- A turn with its attempt and what it asks, written in one batch. -/
def askingWrites : List Write :=
  [.create 0, .append ⟨0, [.turnChanged askingTurn, .attemptChanged (askingAttempt .preparing),
    .itemAdded askedItem, .requestChanged askedRequest], none, 0, 0⟩]

theorem housed_run_asking : ∃ db, askingWrites.foldlM Log.write .empty = some db ∧
    (db.items 3).isSome = true ∧ Housed (fun _ => 0) db := by
  have hrun : (askingWrites.foldlM Log.write .empty).map (fun db => (db.items 3).isSome) =
      some true := rfl
  obtain ⟨db, hdb, hitem⟩ := map_eq_some_iff.mp hrun
  refine ⟨db, hdb, hitem, housed_run (fun input hinput event hevent => ?_) (housed_empty _) hdb⟩
  simp only [askingWrites, mem_cons, reduceCtorEq, not_mem_nil, Write.append.injEq, false_or,
    or_false] at hinput
  subst hinput
  simp only [mem_cons, not_mem_nil, or_false] at hevent
  rcases hevent with rfl | rfl | rfl | rfl <;> simp [Houses, askedItem]
/-- Everything is in session 0. -/
theorem housed_askingStore : Housed (fun _ => 0) askingStore.log where
  items := each_single ⟨rfl, rfl, rfl, fun _ _ => rfl⟩
  requests sessionId id row hrow := by
    by_cases hsession : sessionId = 0
    · subst hsession
      have hasked := @each_single RequestRow (fun id row => row.requestId = id ∧
        ∀ turn, row.turnId = some turn → 0 = 0) 4 (insertRequest 0 (toISOString 0) askedRequest)
        ⟨rfl, fun _ _ => rfl⟩
      exact hasked id row hrow
    · rw [askingStore] at hrow
      simp only [if_neg hsession] at hrow
      cases hrow
  attempts := each_single rfl
  turns := each_single ⟨rfl, rfl⟩

section

variable {turn : Turn} {row : TurnRow}

theorem mem_askingRequests (hid : turn.id = 1) (hsession : turn.sessionId = 0) (row : RequestRow) :
    row ∈ [insertRequest 0 (toISOString 0) askedRequest] ↔
      (∃ id, askingStore.log.requests turn.sessionId id = some row) ∧
        row.turnId = some turn.id ∧ row.status = .pending := by
  rw [mem_singleton, hid, hsession]
  refine ⟨fun h => ⟨exists_single.mpr h.symm, ?_⟩, fun h => (exists_single.mp h.1).symm⟩
  subst h
  exact ⟨rfl, rfl⟩

theorem mem_askingItems (hid : turn.id = 1) (row : ItemRow) :
    row ∈ [insertItem 0 askedItem] ↔ (∃ id, askingStore.log.items id = some row) ∧
      row.turnId = some turn.id ∧ row.status = .inProgress ∧ isInputKind row.kind = false := by
  rw [mem_singleton, hid]
  refine ⟨fun h => ⟨exists_single.mpr h.symm, ?_⟩, fun h => (exists_single.mp h.1).symm⟩
  subst h
  exact ⟨rfl, rfl, rfl⟩

def askingWork (hid : turn.id = 1) (hsession : turn.sessionId = 0) :
    OpenWork askingStore.log turn where
  requests := [insertRequest 0 (toISOString 0) askedRequest]
  items := [insertItem 0 askedItem]
  mem_requests := mem_askingRequests hid hsession
  mem_items := mem_askingItems hid

theorem mem_askingSteered (row : ItemRow) : row ∈ [] ↔
    (∃ id, askingStore.log.items id = some row) ∧ row.turnId = some turn.id ∧
      isInputKind row.kind = true ∧ turn.inputItemId ≠ some row.id := by
  refine ⟨fun h => (by cases h), fun h => ?_⟩
  obtain rfl := exists_single.mp h.1
  cases h.2.2.1

theorem mem_askingAttempts (hid : turn.id = 1) (row : AttemptRow) :
    row ∈ [insertAttempt 0 (askingAttempt .preparing)] ↔
      (∃ id, askingStore.log.attempts id = some row) ∧ row.turnId = turn.id := by
  rw [mem_singleton, hid]
  refine ⟨fun h => ⟨exists_single.mpr h.symm, ?_⟩, fun h => (exists_single.mp h.1).symm⟩
  subst h
  rfl

theorem asking_last (hsession : turn.sessionId = 0) (ordinal : Nat) (h : some 0 = some ordinal) :
    (∃ id row, askingStore.log.turns id = some row ∧ row.sessionId = turn.sessionId ∧
      row.ordinal = ordinal) ∧ ∀ id row, askingStore.log.turns id = some row →
        row.sessionId = turn.sessionId → row.ordinal ≤ ordinal := by
  cases h
  refine ⟨⟨1, askingRow, rfl, hsession.symm, rfl⟩, fun id row hrow _ => ?_⟩
  obtain rfl := exists_single.mp ⟨id, hrow⟩
  exact Nat.le_refl 0

def askingUnread (hid : turn.id = 1) (hsession : turn.sessionId = 0) :
    Unread askingStore.log turn where
  steered := []
  attempts := [insertAttempt 0 (askingAttempt .preparing)]
  lastOrdinal := some 0
  waiting := none
  mem_steered := mem_askingSteered
  mem_attempts := mem_askingAttempts hid
  last := asking_last hsession
  none_last h := by cases h
  mem_waiting _ _ h := by cases h

theorem asking_newest (hordinal : turn.ordinal = 0) :
    false = true ↔ ∃ id row, askingStore.log.turns id = some row ∧
      row.sessionId = turn.sessionId ∧ turn.ordinal < row.ordinal := by
  refine ⟨fun h => (by cases h), ?_⟩
  rintro ⟨id, row, hrow, -, hlater⟩
  obtain rfl := exists_single.mp ⟨id, hrow⟩
  rw [hordinal] at hlater
  exact absurd hlater (Nat.lt_irrefl 0)

theorem asking_uncontinued : false = true ↔
    ∃ id row, askingStore.log.turns id = some row ∧ row.continuationOf = some turn.id := by
  refine ⟨fun h => (by cases h), ?_⟩
  rintro ⟨id, row, hrow, hcontinues⟩
  obtain rfl := exists_single.mp ⟨id, hrow⟩
  cases hcontinues

def askingLater (hordinal : turn.ordinal = 0) : Later askingStore.log turn where
  newer := false
  continued := false
  newer_iff := asking_newest hordinal
  continued_iff := asking_uncontinued

end

/-- The turn ends as interrupted, with its attempt handed over in a status. -/
def endingTurn (status : AttemptStatus) : SettleInput where
  turn := askingTurn
  attempt := askingAttempt status
  attentionRevision := 0
  status := .interrupted
  error := none
  outcome := ⟨⟨""⟩, false⟩
  checkpointAfter := none
  leaseToken := 7
  clock := 10
  began := 10
  stamped := 10
  jitter := 0

def losingTurn : LoseInput where
  turnId := 1
  attempt := askingAttempt .preparing
  reason := "The machine stopped."
  recovers := false
  active := true
  leaseToken := 7
  clock := 10
  began := 10
  stamped := 10

def settledStore (status : AttemptStatus) : Option Store :=
  settle (fun _ => true) (fun turnId itemId => turnId + itemId + 1) askingStore (endingTurn status)
    (askingWork rfl rfl) (askingUnread rfl rfl)

def lostStore : Option Store :=
  lose (fun _ => true) (fun turnId itemId => turnId + itemId + 1) (fun message => ⟨message⟩)
    (fun _ => false) (fun turnId => turnId + 1) (fun turnId => turnId + 1) askingStore losingTurn
    askingRow (askingWork rfl rfl) (askingUnread rfl rfl) (askingLater rfl)

/-- **A turn that settled, or whose attempt was lost, leaves no open work.** -/
theorem ended_turn_closed {home : Id → Id} {ownersOf : Item → Bool}
    {steeredTurnId : Id → Id → Id} {message : String → Json} {strong : Json → Bool}
    {noticeId continuationId : Id → Id} {store store' : Store} (hhoused : Housed home store.log)
    (hfresh : ∀ turnId itemId, steeredTurnId turnId itemId ≠ turnId)
    (hcontinuation : ∀ turnId, continuationId turnId ≠ turnId) :
    (∀ (input : SettleInput) (work : OpenWork store.log input.turn)
      (unread : Unread store.log input.turn), input.turn.sessionId = home input.turn.id →
      settle ownersOf steeredTurnId store input work unread = some store' →
      Closed store' input.turn.id ∧
      (∀ row, store.log.turns input.turn.id = some row → row.cancellationRequestedAt.isSome →
        ∀ row', store'.log.turns input.turn.id = some row' → row'.status ≠ .queued) ∧
      (Handed store.log input.turn input.attempt → AttemptEnded store'.log input.turn.id)) ∧
    ∀ (input : LoseInput) (row : TurnRow) (work : OpenWork store.log (turnFromRow input.began row))
      (unread : Unread store.log (turnFromRow input.began row))
      (later : Later store.log (turnFromRow input.began row)),
      store.log.turns input.turnId = some row →
      lose ownersOf steeredTurnId message strong noticeId continuationId store input row work
        unread later = some store' →
      Closed store' input.turnId ∧
      (∀ row', store'.log.turns input.turnId = some row' → row'.status = .interrupted) ∧
      ((∀ id, row.activeAttemptId = some id → ∀ attempt, store.log.attempts id = some attempt →
        id = input.attempt.id ∧ attempt.turnId = input.turnId) →
          AttemptEnded store'.log input.turnId) :=
  ⟨fun _ _ _ => settle_closed hhoused hfresh,
    fun _ _ _ _ _ => lose_closed hhoused hfresh hcontinuation⟩

theorem ended_turn_closed_asking :
    (∃ store', settledStore .preparing = some store' ∧ Closed store' 1 ∧
      AttemptEnded store'.log 1) ∧
    ∃ store', lostStore = some store' ∧ Closed store' 1 ∧ AttemptEnded store'.log 1 := by
  have hclosed := fun store' => @ended_turn_closed (fun _ => 0) (fun _ => true)
    (fun turnId itemId => turnId + itemId + 1) (fun message => ⟨message⟩) (fun _ => false)
    (fun turnId => turnId + 1) (fun turnId => turnId + 1) askingStore store' housed_askingStore
    (fun turnId itemId => Nat.ne_of_gt (Nat.lt_succ_of_le (Nat.le_add_right turnId itemId)))
    Nat.succ_ne_self
  constructor
  · obtain ⟨store', hstore'⟩ : ∃ store', settledStore .preparing = some store' := ⟨_, rfl⟩
    obtain ⟨hturn, -, hattempt⟩ := (hclosed store').1 (endingTurn .preparing) _ _ rfl hstore'
    refine ⟨store', hstore', hturn, hattempt fun id hid row hrow => ?_⟩
    cases hid
    cases hrow
    exact ⟨rfl, rfl, rfl⟩
  · obtain ⟨store', hstore'⟩ : ∃ store', lostStore = some store' := ⟨_, rfl⟩
    obtain ⟨hturn, -, hattempt⟩ := (hclosed store').2 losingTurn askingRow _ _ _ rfl hstore'
    refine ⟨store', hstore', hturn, hattempt fun id hid row hrow => ?_⟩
    cases hid
    cases hrow
    exact ⟨rfl, rfl⟩

/-- A question that does not block stays in progress, and an attempt that is handed over as one
that failed stays as it is stored. -/
theorem ended_turn_open :
    (∃ store', settledStore .preparing = some store' ∧ ∃ row, store'.log.items 3 = some row ∧
      row.turnId = some 1 ∧ isInputKind row.kind = false ∧ row.status = .inProgress) ∧
    ∃ store', settledStore .failed = some store' ∧ ¬ AttemptEnded store'.log 1 := by
  constructor
  · obtain ⟨store', hstore'⟩ : ∃ store', settledStore .preparing = some store' := ⟨_, rfl⟩
    refine ⟨store', hstore', ?_⟩
    cases hstore'
    exact ⟨_, rfl, rfl, rfl, rfl⟩
  · obtain ⟨store', hstore'⟩ : ∃ store', settledStore .failed = some store' := ⟨_, rfl⟩
    refine ⟨store', hstore', fun hended => ?_⟩
    cases hstore'
    cases hended _ rfl 2 rfl _ rfl

end Catamorphic.Sessions.Settling
