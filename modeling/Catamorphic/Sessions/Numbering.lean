import Catamorphic.Lib.Runs
import Catamorphic.Sessions.Mirror
import Mathlib.Data.List.Range

/-!
# Numbers and positions of a session's log

Four writers number the events of a session: batches appended here, batches another copy
committed, snapshots, and the emptying of a copy. The stored events end at the session row's
sequence without a gap, and an item stands where the event that added it stands in the log,
or where the snapshot that brought it says.
-/

namespace Catamorphic.Sessions.Numbering

open Protocol Rows Log Table Mirror List Option Function

/-! ## Where items stand -/

/-- The session and the position of an item. -/
def placeOf (db : Db) (id : Id) : Option (Id × Nat) :=
  (db.items id).map fun row => (row.sessionId, row.position)

/-- The item an event adds or changes. -/
def itemOf : SessionEvent → Option Item
  | .itemAdded item | .itemChanged item => some item
  | _ => none

theorem placeOf_upsert (db : Db) (sessionId : Id) (item : Item) (id : Id) :
    ((upsert db.items ItemRow.sessionId item.id sessionId (insertItem sessionId item)
      (updateItem item)) id).map (fun row => (row.sessionId, row.position)) =
      (placeOf db id).or (if id = item.id then some (sessionId, item.position) else none) := by
  by_cases hid : id = item.id
  · subst hid
    cases hrow : db.items item.id with
    | none => simp [upsert, placeOf, hrow, insertItem]
    | some row =>
      by_cases hown : row.sessionId = sessionId <;>
        simp [upsert, placeOf, hrow, hown, updateItem]
  · simp [upsert, placeOf, hid]

/-- **An item keeps its place**; a new one stands where its first event says. -/
theorem placeOf_project (now : Date) (db : Db) (stored : StoredSessionEvent) (id : Id) :
    placeOf (project now db stored) id =
      (placeOf db id).or (((itemOf stored.event).filter (·.id = id)).map
        fun item => (stored.sessionId, item.position)) := by
  cases hevent : stored.event with
  | itemAdded item | itemChanged item =>
    simp only [project, hevent, itemOf]
    rw [placeOf, placeOf_upsert, filter_some]
    by_cases hid : id = item.id
    · simp [hid]
    · simp [hid, Ne.symm hid]
  | itemTextAppended itemId field text at' =>
    simp only [project, hevent, itemOf]
    rw [placeOf, placeOf]
    by_cases hid : id = itemId
    · subst hid
      cases hrow : db.items id with
      | none => simp [change, hrow]
      | some row =>
        by_cases hown : row.sessionId = stored.sessionId <;>
          simp [change, hrow, hown, appendText]
    · simp [change, hid]
  | sessionChanged | turnChanged | attemptChanged | requestChanged | providerThreadChanged =>
    simp [project, hevent, itemOf, placeOf]

theorem placeOf_persist (now : Date) (db : Db) (stored : StoredSessionEvent) (id : Id) :
    placeOf (persist now db stored) id =
      (placeOf db id).or (((itemOf stored.event).filter (·.id = id)).map
        fun item => (stored.sessionId, item.position)) :=
  placeOf_project now db stored id

/-! ## The invariant of one session -/

/-- An event that adds an item. -/
def adds (id : Id) (stored : StoredSessionEvent) : Bool :=
  match stored.event with
  | .itemAdded item => item.id = id
  | _ => false

/-- The first event of the log that adds an item has a number. -/
def AddedAt (db : Db) (sessionId id : Id) (sequence : Nat) : Prop :=
  ((eventsOf db sessionId).find? (adds id)).map StoredSessionEvent.sequence = some sequence

/--
What holds of a session's log at every moment; `imported` are the places snapshots brought.
-/
structure Sound (imported : Id → Id → Nat → Prop) (db : Db) (sessionId : Id) : Prop where
  /-- The stored events are numbered without a gap, up to the session row's sequence. -/
  numbered : ∀ n ∈ db.eventSequence sessionId, (eventsOf db sessionId).length ≤ n ∧
    (eventsOf db sessionId).map StoredSessionEvent.sequence =
      List.range' (n + 1 - (eventsOf db sessionId).length) (eventsOf db sessionId).length
  /-- No two items of the session stand at one position. -/
  unique : ∀ id id' position, placeOf db id = some (sessionId, position) →
    placeOf db id' = some (sessionId, position) → id = id'
  /-- An item stands where the event that added it is numbered. -/
  origin : ∀ id position, placeOf db id = some (sessionId, position) →
    AddedAt db sessionId id position ∨ imported sessionId id position
  bounded : ∀ id position, placeOf db id = some (sessionId, position) →
    ∃ n ∈ db.eventSequence sessionId, position ≤ n
  /-- What an event added is there. -/
  present : ∀ stored ∈ eventsOf db sessionId, ∀ id, adds id stored = true →
    ∃ position, placeOf db id = some (sessionId, position)
  absent : db.eventSequence sessionId = none → eventsOf db sessionId = []

/-- An event puts an item where its number says, or says something of an item that is there. -/
def Placed (db : Db) (stored : StoredSessionEvent) : Prop :=
  match stored.event with
  | .itemAdded item =>
    (∀ place ∈ placeOf db item.id, place.1 = stored.sessionId) ∧
      (placeOf db item.id = none → item.position = stored.sequence)
  | .itemChanged item => placeOf db item.id ≠ none
  | _ => True

variable {imported : Id → Id → Nat → Prop} {db : Db} {sessionId : Id}

variable {now : Date} {id : Id} {stored : StoredSessionEvent} {place : Id × Nat} {n : Nat}
  {sequence : Nat}

/-- A place that was there is there after a step; a new one is what the event says. -/
theorem placeOf_persist_cases
    (h : placeOf (persist now db stored) id = some place) : placeOf db id = some place ∨
      (placeOf db id = none ∧ ∃ item, itemOf stored.event = some item ∧ item.id = id ∧
        place = (stored.sessionId, item.position)) := by
  rw [placeOf_persist] at h
  cases hold : placeOf db id with
  | some old =>
    rw [hold, some_or] at h
    exact .inl h
  | none =>
    rw [hold, none_or, map_eq_some_iff] at h
    obtain ⟨item, hitem, hplace⟩ := h
    obtain ⟨hitem, hid⟩ := filter_eq_some_iff.mp hitem
    exact .inr ⟨rfl, item, hitem, of_decide_eq_true hid, hplace.symm⟩

theorem placeOf_persist_of_some
    (h : placeOf db id = some place) : placeOf (persist now db stored) id = some place := by
  rw [placeOf_persist, h, some_or]

/-- The first event that adds an item stays the first. -/
theorem AddedAt.persist (h : AddedAt db sessionId id sequence) :
    AddedAt (persist now db stored) sessionId id sequence := by
  obtain ⟨first, hfirst, hsequence⟩ := map_eq_some_iff.mp h
  rw [AddedAt, eventsOf_persist, List.find?_append, hfirst, some_or, map_some, hsequence]

/-- A new event follows the numbers there are. -/
theorem numbered_concat {events : List StoredSessionEvent} (hlength : events.length ≤ n)
    (hnumbered : events.map StoredSessionEvent.sequence =
      List.range' (n + 1 - events.length) events.length) (hnext : stored.sequence = n + 1) :
    (events ++ [stored]).length ≤ n + 1 ∧ (events ++ [stored]).map StoredSessionEvent.sequence =
        List.range' (n + 1 + 1 - (events ++ [stored]).length) (events ++ [stored]).length := by
  have hconcat : (events ++ [stored]).length = events.length + 1 := length_append
  refine ⟨by omega, ?_⟩
  have hfirst : n + 1 + 1 - (events.length + 1) = n + 1 - events.length := by omega
  have hlast : n + 1 - events.length + 1 * events.length = n + 1 := by omega
  rw [hconcat, hfirst, range'_concat, hlast, map_append, hnumbered, map_singleton, hnext]

/-- A log without events is numbered. -/
theorem numbered_nil {events : List StoredSessionEvent} (h : events = []) (n : Nat) :
    events.length ≤ n ∧ events.map StoredSessionEvent.sequence =
      List.range' (n + 1 - events.length) events.length := by
  subst h
  exact ⟨Nat.zero_le n, rfl⟩

theorem Sound.mono {imported' : Id → Id → Nat → Prop} (h : Sound imported db sessionId)
    (himp : ∀ id position, imported sessionId id position → imported' sessionId id position) :
    Sound imported' db sessionId :=
  { h with origin := fun id position hid => (h.origin id position hid).imp_right (himp id position)
    }

/-- What changes other sessions keeps the invariant of this one. -/
theorem Sound.frame {db' : Db} (h : Sound imported db sessionId)
    (hevents : eventsOf db' sessionId = eventsOf db sessionId)
    (hrow : db'.eventSequence sessionId = db.eventSequence sessionId)
    (hplaces : ∀ id position, placeOf db' id = some (sessionId, position) ↔
      placeOf db id = some (sessionId, position)) : Sound imported db' sessionId := by
  refine ⟨?_, ?_, ?_, ?_, ?_, ?_⟩ <;> simp only [hevents, hrow, hplaces, AddedAt]
  · exact h.numbered
  · exact h.unique
  · exact h.origin
  · exact h.bounded
  · exact h.present
  · exact h.absent

/-- So does an empty log without items. -/
theorem Sound.empty (hevents : eventsOf db sessionId = [])
    (hplaces : ∀ id position, placeOf db id ≠ some (sessionId, position)) :
    Sound imported db sessionId where
  numbered n _ := numbered_nil hevents n
  unique id _ position hid _ := absurd hid (hplaces id position)
  origin id position hid := absurd hid (hplaces id position)
  bounded id position hid := absurd hid (hplaces id position)
  present _ hevent _ _ := absurd (hevents ▸ hevent) not_mem_nil
  absent _ := hevents

theorem adds_iff :
    adds id stored = true ↔ ∃ item, stored.event = .itemAdded item ∧ item.id = id := by
  unfold adds
  split <;> simp_all

/-- **The next event, put in its place, keeps the invariant**, of its session and of others. -/
theorem Sound.persist (h : Sound imported db sessionId) (now : Date)
    (hsequence : db.eventSequence stored.sessionId = some n) (hnext : stored.sequence = n + 1)
    (hplaced : stored.sessionId = sessionId → Placed db stored) :
    Sound imported (persist now db stored) sessionId := by
  by_cases hsession : stored.sessionId = sessionId
  · subst hsession
    have hplaced := hplaced rfl
    have hevents : eventsOf (Log.persist now db stored) stored.sessionId =
        eventsOf db stored.sessionId ++ [stored] := by
      rw [eventsOf_persist, if_pos rfl]
    have hrow : (Log.persist now db stored).eventSequence stored.sessionId = some (n + 1) := by
      rw [eventSequence_persist, update_self, hnext]
    -- An item that was not there stands at the event's number.
    have hcases : ∀ {id position},
        placeOf (Log.persist now db stored) id = some (stored.sessionId, position) →
        (placeOf db id = some (stored.sessionId, position) ∧ position ≤ n) ∨
          (placeOf db id = none ∧ position = n + 1 ∧ adds id stored = true) := by
      intro id position hplace
      rcases placeOf_persist_cases hplace with hold | ⟨hnone, item, hitem, rfl, heq⟩
      · obtain ⟨m, hm, hle⟩ := h.bounded id position hold
        cases hsequence.symm.trans hm
        exact .inl ⟨hold, hle⟩
      obtain ⟨-, rfl⟩ := Prod.mk.inj heq
      cases hevent : stored.event with
      | itemAdded added =>
        rw [hevent] at hitem
        cases hitem
        simp only [Placed, hevent] at hplaced
        exact .inr ⟨hnone, hnext ▸ hplaced.2 hnone, adds_iff.mpr ⟨item, hevent, rfl⟩⟩
      | itemChanged changed =>
        rw [hevent] at hitem
        cases hitem
        simp only [Placed, hevent] at hplaced
        exact absurd hnone hplaced
      | sessionChanged | turnChanged | attemptChanged | itemTextAppended | requestChanged
      | providerThreadChanged =>
        rw [hevent] at hitem
        cases hitem
    refine ⟨fun m hm => ?_, fun id id' position hid hid' => ?_, fun id position hid => ?_,
      fun id position hid => ?_, fun event hevent id hadds => ?_, fun hnone => ?_⟩
    · rw [hrow, mem_some] at hm
      subst hm
      obtain ⟨hlength, hnumbered⟩ := h.numbered n hsequence
      rw [hevents]
      exact numbered_concat hlength hnumbered hnext
    · rcases hcases hid with ⟨hold, hle⟩ | ⟨-, heq, hadds⟩ <;>
        rcases hcases hid' with ⟨hold', hle'⟩ | ⟨-, heq', hadds'⟩
      · exact h.unique id id' position hold hold'
      · omega
      · omega
      · -- One event adds one item.
        obtain ⟨item, hitem, rfl⟩ := adds_iff.mp hadds
        obtain ⟨item', hitem', rfl⟩ := adds_iff.mp hadds'
        cases hitem.symm.trans hitem'
        rfl
    · rcases hcases hid with ⟨hold, -⟩ | ⟨hnone, rfl, hadds⟩
      · exact (h.origin id position hold).imp_left AddedAt.persist
      -- No event before added it: it would be there.
      have hbefore : (eventsOf db stored.sessionId).find? (adds id) = none :=
        List.find?_eq_none.mpr fun event hevent heq => by
          obtain ⟨_, hplace⟩ := h.present event hevent id heq
          cases hnone.symm.trans hplace
      refine .inl ?_
      rw [AddedAt, hevents, List.find?_append, hbefore, none_or, List.find?_singleton,
        if_pos hadds, map_some, hnext]
    · exact ⟨n + 1, hrow, (hcases hid).elim (·.2.trans n.le_succ) (·.2.1.le)⟩
    · rw [hevents, mem_append, mem_singleton] at hevent
      rcases hevent with hevent | rfl
      · obtain ⟨position, hplace⟩ := h.present event hevent id hadds
        exact ⟨position, placeOf_persist_of_some hplace⟩
      · obtain ⟨item, hitem, rfl⟩ := adds_iff.mp hadds
        simp only [Placed, hitem] at hplaced
        cases hold : placeOf db item.id with
        | some place =>
          refine ⟨place.2, ?_⟩
          rw [placeOf_persist_of_some hold]
          exact congrArg some (Prod.ext (hplaced.1 place hold) rfl)
        | none =>
          refine ⟨item.position, ?_⟩
          rw [placeOf_persist, hold, hitem]
          simp [itemOf]
    · rw [hrow] at hnone
      cases hnone
  · refine h.frame ?_ ?_ fun id position => ⟨fun hid => ?_, placeOf_persist_of_some⟩
    · rw [eventsOf_persist, if_neg hsession, append_nil]
    · rw [eventSequence_persist, update_of_ne (Ne.symm hsession)]
    · rcases placeOf_persist_cases hid with hold | ⟨_, _, _, _, heq⟩
      · exact hold
      · exact absurd (Prod.mk.inj heq).1.symm hsession

/-! ## Batches -/

/--
The items of a batch, put where their events are numbered: an item that is not there is
added before it is changed, and is no other session's. `known` are those added before.
-/
def ItemsPlaced (db : Db) (sessionId : Id) : List Id → List StoredSessionEvent → Prop
  | _, [] => True
  | known, stored :: batch =>
    match stored.event with
    | .itemAdded item =>
      (∀ place ∈ placeOf db item.id, place.1 = sessionId) ∧
        (placeOf db item.id = none → item.id ∉ known → item.position = stored.sequence) ∧
        ItemsPlaced db sessionId (item.id :: known) batch
    | .itemChanged item =>
      (placeOf db item.id ≠ none ∨ item.id ∈ known) ∧ ItemsPlaced db sessionId known batch
    | _ => ItemsPlaced db sessionId known batch

variable {known : List Id} {writer : Id}

/-- Items put in place since were the session's own. -/
theorem ItemsPlaced.mono {db' : Db} {batch : List StoredSessionEvent}
    (h : ItemsPlaced db sessionId known batch)
    (hold : ∀ id place, placeOf db id = some place → placeOf db' id = some place)
    (hnew : ∀ id place, placeOf db' id = some place →
      placeOf db id = some place ∨ place.1 = sessionId) :
    ItemsPlaced db' sessionId known batch := by
  have hnone : ∀ {id}, placeOf db' id = none → placeOf db id = none := by
    intro id hid
    cases hplace : placeOf db id with
    | none => rfl
    | some place => cases hid.symm.trans (hold id place hplace)
  induction batch generalizing known with
  | nil => trivial
  | cons stored batch ih =>
    cases hevent : stored.event with
    | itemAdded item =>
      simp only [ItemsPlaced, hevent] at h ⊢
      obtain ⟨hown, hposition, hrest⟩ := h
      refine ⟨fun place hplace => ?_, fun hid => hposition (hnone hid), ih hrest⟩
      exact (hnew item.id place hplace).elim (hown place) id
    | itemChanged item =>
      simp only [ItemsPlaced, hevent] at h ⊢
      exact ⟨h.1.imp_left fun hid hnone' => hid (hnone hnone'), ih h.2⟩
    | sessionChanged | turnChanged | attemptChanged | itemTextAppended | requestChanged
    | providerThreadChanged =>
      simp only [ItemsPlaced, hevent] at h ⊢
      exact ih h

/-- The first event of a batch is put in its place, and the rest follows. -/
theorem ItemsPlaced.step {batch : List StoredSessionEvent}
    (now : Date) (h : ItemsPlaced db stored.sessionId known (stored :: batch))
    (hknown : ∀ id ∈ known, placeOf db id ≠ none) :
    Placed db stored ∧ ∃ known', (∀ id ∈ known', placeOf (persist now db stored) id ≠ none) ∧
      ItemsPlaced (persist now db stored) stored.sessionId known' batch := by
  have hold : ∀ id place, placeOf db id = some place →
      placeOf (persist now db stored) id = some place := fun _ _ => placeOf_persist_of_some
  have hnew : ∀ id place, placeOf (persist now db stored) id = some place →
      placeOf db id = some place ∨ place.1 = stored.sessionId := by
    intro id place hplace
    rcases placeOf_persist_cases hplace with hplace | ⟨_, _, _, _, rfl⟩
    · exact .inl hplace
    · exact .inr rfl
  have hkept : ∀ id, placeOf db id ≠ none → placeOf (persist now db stored) id ≠ none := by
    intro id hid hnone
    obtain ⟨place, hplace⟩ := ne_none_iff_exists'.mp hid
    cases hnone.symm.trans (hold id place hplace)
  cases hevent : stored.event with
  | itemAdded item =>
    simp only [ItemsPlaced, Placed, hevent] at h ⊢
    obtain ⟨hown, hposition, hrest⟩ := h
    refine ⟨⟨hown, fun hnone => hposition hnone fun hmem => hknown _ hmem hnone⟩,
      item.id :: known, fun id hid => ?_, hrest.mono hold hnew⟩
    rcases mem_cons.mp hid with rfl | hid
    · rw [placeOf_persist, hevent]
      cases placeOf db item.id <;> simp [itemOf]
    · exact hkept id (hknown id hid)
  | itemChanged item =>
    simp only [ItemsPlaced, Placed, hevent] at h ⊢
    exact ⟨h.1.elim id (hknown item.id), known, fun id hid => hkept id (hknown id hid),
      h.2.mono hold hnew⟩
  | sessionChanged | turnChanged | attemptChanged | itemTextAppended | requestChanged
  | providerThreadChanged =>
    simp only [ItemsPlaced, Placed, hevent] at h ⊢
    exact ⟨trivial, known, fun id hid => hkept id (hknown id hid), h.mono hold hnew⟩

/-- **A batch of one session, put in place, keeps the invariant of every session.** -/
theorem Sound.batch (h : Sound imported db sessionId) (now : Date)
    {batch : List StoredSessionEvent} (hsequence : db.eventSequence writer = some n)
    (hwriter : ∀ stored ∈ batch, stored.sessionId = writer)
    (hnumbered : batch.map StoredSessionEvent.sequence = List.range' (n + 1) batch.length)
    (hknown : ∀ id ∈ known, placeOf db id ≠ none) (hplaced : ItemsPlaced db writer known batch) :
    Sound imported (batch.foldl (Log.persist now) db) sessionId := by
  induction batch generalizing db n known with
  | nil => exact h
  | cons stored batch ih =>
    obtain rfl := hwriter stored mem_cons_self
    rw [map_cons, length_cons, range'_succ, List.cons.injEq] at hnumbered
    obtain ⟨hnext, hrest⟩ := hnumbered
    obtain ⟨hfirst, known', hknown', hplaced'⟩ := hplaced.step now hknown
    refine ih (h.persist now hsequence hnext fun _ => hfirst) (n := n + 1) ?_
      (List.forall_mem_cons.mp hwriter).2 hrest hknown' hplaced'
    rw [eventSequence_persist, update_self, hnext]

/-- The items of a batch of one's own: they get their positions when the batch is appended. -/
def ItemsKnown (db : Db) (sessionId : Id) : List Id → List SessionEvent → Prop
  | _, [] => True
  | known, event :: events =>
    match event with
    | .itemAdded item =>
      (∀ place ∈ placeOf db item.id, place.1 = sessionId) ∧
        ItemsKnown db sessionId (item.id :: known) events
    | .itemChanged item =>
      (placeOf db item.id ≠ none ∨ item.id ∈ known) ∧ ItemsKnown db sessionId known events
    | _ => ItemsKnown db sessionId known events

variable {events : List SessionEvent}

/-- Bringing the turns up to date leaves the items. -/
theorem ItemsKnown.currentTurns (h : ItemsKnown db sessionId known events) :
    ItemsKnown db sessionId known (currentTurns db sessionId events) := by
  induction events generalizing known with
  | nil => trivial
  | cons event events ih =>
    cases event with
    | itemAdded item => exact ⟨h.1, ih h.2⟩
    | itemChanged item => exact ⟨h.1, ih h.2⟩
    | turnChanged turn =>
      have hrest := @ih known h
      unfold Log.currentTurns at hrest ⊢
      rw [filterMap_cons]
      split
      · exact hrest
      · rename_i event' hevent
        unfold currentTurn at hevent
        dsimp only at hevent
        split at hevent
        · cases hevent
          exact hrest
        · split at hevent
          · cases hevent
          · split at hevent <;> cases hevent <;> exact hrest
    | sessionChanged | attemptChanged | itemTextAppended | requestChanged
    | providerThreadChanged => exact @ih known h

/-- **The items of an appended batch are put in place.** -/
theorem ItemsKnown.placeAll (h : ItemsKnown db sessionId known events) (at' : Stamp)
    (commandId : Option String) (positions : Id → Option Nat) (sequence : Nat) :
    ItemsPlaced db sessionId known
      (placeAll sessionId at' commandId positions sequence events) := by
  induction events generalizing known positions sequence with
  | nil => trivial
  | cons event events ih =>
    cases event with
    | itemAdded item => exact ⟨h.1, fun _ _ => rfl, ih h.2 _ _⟩
    | itemChanged item =>
      have hrest := ih h.2 positions (sequence + 1)
      rw [Log.placeAll]
      cases hposition : positions item.id with
      | none | some position =>
        simp only [place, hposition]
        exact ⟨h.1, hrest⟩
    | sessionChanged | turnChanged | attemptChanged | itemTextAppended | requestChanged
    | providerThreadChanged => exact ih h positions (sequence + 1)

/-! ## Snapshots -/

/-- An item of a snapshot that is not there comes to a place of its own, within the log. -/
structure SnapshotPlaced (db : Db) (sessionId : Id) (snapshot : SessionSnapshot) : Prop where
  /-- A copy that logged events is not moved on past them. -/
  unlogged : eventsOf db sessionId = [] ∨
    ∃ n ∈ db.eventSequence sessionId, snapshot.sequence ≤ n
  bounded : ∀ item ∈ snapshot.items, placeOf db item.id = none →
    ∃ n ∈ db.eventSequence sessionId, item.position ≤ max n snapshot.sequence
  free : ∀ item ∈ snapshot.items, placeOf db item.id = none →
    ∀ id, placeOf db id ≠ some (sessionId, item.position)
  apart : snapshot.items.Pairwise fun item item' =>
    item.id = item'.id ∨ placeOf db item.id ≠ none ∨ placeOf db item'.id ≠ none ∨
      item.position ≠ item'.position

/-- What projecting the entities of a snapshot leaves and brings. -/
theorem placeOf_projects {at' : Stamp}
    (h : placeOf ((events.map fun event => (⟨sessionId, sequence, at', none, event⟩ :
      StoredSessionEvent)).foldl (project now) db) id = some place) :
    placeOf db id = some place ∨
      (placeOf db id = none ∧ ∃ event ∈ events, ∃ item, itemOf event = some item ∧
        item.id = id ∧ place = (sessionId, item.position)) := by
  induction events generalizing db with
  | nil => exact .inl h
  | cons event events ih =>
    rcases ih h with hplace | ⟨hnone, event', hevent', hitem⟩
    · rw [placeOf_project] at hplace
      cases hold : placeOf db id with
      | some old =>
        rw [hold, some_or] at hplace
        exact .inl hplace
      | none =>
        rw [hold, none_or, map_eq_some_iff] at hplace
        obtain ⟨item, hitem, hplace⟩ := hplace
        obtain ⟨hitem, hid⟩ := filter_eq_some_iff.mp hitem
        exact .inr ⟨rfl, event, mem_cons_self, item, hitem, of_decide_eq_true hid, hplace.symm⟩
    · refine .inr ⟨?_, event', mem_cons_of_mem _ hevent', hitem⟩
      rw [placeOf_project] at hnone
      exact (or_eq_none_iff.mp hnone).1

theorem placeOf_projects_of_some {stored : List StoredSessionEvent}
    (h : placeOf db id = some place) : placeOf (stored.foldl (project now) db) id = some place := by
  induction stored generalizing db with
  | nil => exact h
  | cons event stored ih => exact ih (by rw [placeOf_project, h, some_or])

variable {snapshot : SessionSnapshot}

/-- The items of a snapshot are those its events add. -/
theorem itemOf_snapshotEvents {event : SessionEvent} {item : Item}
    (hevent : event ∈ (snapshotEvents snapshot).map copiedEvent)
      (hitem : itemOf event = some item) :
    item ∈ snapshot.items := by
  obtain ⟨sent, hsent, heq⟩ := mem_map.mp hevent
  rw [← heq] at hitem
  cases sent with
  | itemAdded added =>
    cases hitem
    simpa [snapshotEvents] using hsent
  | itemChanged changed => simp [snapshotEvents] at hsent
  | sessionChanged | turnChanged | attemptChanged | itemTextAppended | requestChanged
  | providerThreadChanged => cases hitem

variable {metadataOk : Json → Bool} {store' : Store} {store : Store} {op : Operation} {clock : Date}

/-- What an import leaves and brings of the items. -/
theorem placeOf_importSnapshot
    (himport : importSnapshot metadataOk now clock store writer snapshot = .ok store') :
    (∀ id place, placeOf store.db id = some place → placeOf store'.db id = some place) ∧
      ∀ id owner position, placeOf store'.db id = some (owner, position) →
        placeOf store.db id = some (owner, position) ∨
          (placeOf store.db id = none ∧ owner = writer ∧ ∃ item ∈ snapshot.items,
            item.id = id ∧ item.position = position) := by
  unfold Mirror.importSnapshot at himport
  split at himport
  · cases himport
  · split at himport
    · cases himport
    · rename_i own hown
      cases himport
      obtain rfl := ownEvents_some hown
      refine ⟨fun id place => placeOf_projects_of_some, fun id owner position hplace => ?_⟩
      rcases placeOf_projects hplace with hold | ⟨hnone, event, hevent, item, hitem, hid, heq⟩
      · exact .inl hold
      · obtain ⟨rfl, rfl⟩ := Prod.mk.inj heq
        exact .inr ⟨hnone, rfl, item, itemOf_snapshotEvents hevent hitem, hid, rfl⟩

/-- Items of a snapshot that are both new to a session stand apart. -/
theorem SnapshotPlaced.eq_of_position (h : SnapshotPlaced db sessionId snapshot) {item item' : Item}
    (hitem : item ∈ snapshot.items) (hitem' : item' ∈ snapshot.items)
    (hnone : placeOf db item.id = none) (hnone' : placeOf db item'.id = none)
    (hposition : item.position = item'.position) : item.id = item'.id := by
  have hsymm : Std.Symm fun a b : Item =>
      a.id = b.id ∨ placeOf db a.id ≠ none ∨ placeOf db b.id ≠ none ∨ a.position ≠ b.position := by
    refine ⟨fun a b hab => ?_⟩
    rcases hab with hab | hab | hab | hab
    · exact .inl hab.symm
    · exact .inr (.inr (.inl hab))
    · exact .inr (.inl hab)
    · exact .inr (.inr (.inr hab.symm))
  have hapart := h.apart.forall_of_forall fun _ _ => .inl rfl
  rcases hapart hitem hitem' with hid | hold | hold | hne
  · exact hid
  · exact absurd hnone hold
  · exact absurd hnone' hold
  · exact absurd hposition hne

/-- **A snapshot put in place keeps the invariant**, with the places it brought. -/
theorem Sound.importSnapshot
    (h : Sound imported store.db sessionId) (hplaced : SnapshotPlaced store.db writer snapshot)
    (himport : importSnapshot metadataOk now clock store writer snapshot = .ok store') :
    Sound (fun owner id position => imported owner id position ∨
      (owner = writer ∧ ∃ item ∈ snapshot.items, item.id = id ∧ item.position = position))
      store'.db sessionId := by
  obtain ⟨hkept, hbrought⟩ := placeOf_importSnapshot himport
  obtain ⟨n, hsequence, hsequence', hevents⟩ := importSnapshot_log himport
  have hlog : ∀ id, eventsOf store'.db id = eventsOf store.db id := fun id => by
    rw [eventsOf, hevents, ← eventsOf]
  by_cases hsession : sessionId = writer
  case neg =>
    refine (h.mono fun _ _ => .inl).frame (hlog _) (by rw [hsequence', update_of_ne hsession])
      fun id position => ⟨fun hid => ?_, hkept id _⟩
    exact (hbrought _ _ _ hid).resolve_right fun hnew => hsession hnew.2.1
  subst hsession
  have hrow : store'.db.eventSequence sessionId = some (max n snapshot.sequence) := by
    rw [hsequence', update_self]
  refine ⟨fun m hm => ?_, fun id id' position hid hid' => ?_, fun id position hid => ?_,
    fun id position hid => ?_, fun event hevent id hadds => ?_, fun hnone => ?_⟩
  · rw [hlog]
    cases hrow.symm.trans hm
    rcases hplaced.unlogged with hnil | ⟨n', hn', hle⟩
    · exact numbered_nil hnil _
    · cases hsequence.symm.trans hn'
      rw [max_eq_left hle]
      exact h.numbered n hsequence
  · rcases hbrought _ _ _ hid with hold | ⟨hnone, -, item, hitem, rfl, rfl⟩ <;>
      rcases hbrought _ _ _ hid' with hold' | ⟨hnone', -, item', hitem', rfl, hposition⟩
    · exact h.unique id id' position hold hold'
    · subst hposition
      exact absurd hold (hplaced.free item' hitem' hnone' id)
    · exact absurd hold' (hplaced.free item hitem hnone id')
    · exact hplaced.eq_of_position hitem hitem' hnone hnone' hposition.symm
  · rcases hbrought _ _ _ hid with hold | ⟨-, hnew⟩
    · refine (h.origin id position hold).imp (fun hadded => ?_) .inl
      rwa [AddedAt, hlog]
    · exact .inr (.inr hnew)
  · rcases hbrought _ _ _ hid with hold | ⟨hnone, -, item, hitem, rfl, rfl⟩
    · obtain ⟨m, hm, hle⟩ := h.bounded id position hold
      cases hsequence.symm.trans hm
      exact ⟨_, hrow, hle.trans (le_max_left _ _)⟩
    · obtain ⟨m, hm, hle⟩ := hplaced.bounded item hitem hnone
      cases hsequence.symm.trans hm
      exact ⟨_, hrow, hle⟩
  · rw [hlog] at hevent
    obtain ⟨position, hplace⟩ := h.present event hevent id hadds
    exact ⟨position, hkept _ _ hplace⟩
  · cases hrow.symm.trans hnone

/-! ## Sessions created and emptied -/

/-- A copy that is emptied loses its items; the others keep theirs. -/
theorem placeOf_clearUnlogged (hclear : clearUnlogged store writer = some store') (id : Id) :
    placeOf store'.db id = (placeOf store.db id).filter fun place => place.1 ≠ writer := by
  unfold clearUnlogged at hclear
  split at hclear
  · cases hclear
  · cases hclear
    cases hrow : store.db.items id with
    | none => simp [placeOf, hrow]
    | some row =>
      by_cases hown : row.sessionId = writer <;> simp [placeOf, hrow, hown, filter_some]

theorem Sound.clearUnlogged (h : Sound imported store.db sessionId)
    (hclear : clearUnlogged store writer = some store') : Sound imported store'.db sessionId := by
  have hplaces : ∀ id position, placeOf store'.db id = some (sessionId, position) ↔
      placeOf store.db id = some (sessionId, position) ∧ sessionId ≠ writer := fun id position => by
    rw [placeOf_clearUnlogged hclear, filter_eq_some_iff, decide_eq_true_iff]
  unfold Mirror.clearUnlogged at hclear
  split at hclear
  · cases hclear
  · rename_i hlogged
    rw [hasLogged, Bool.not_eq_true, Bool.not_eq_false', List.isEmpty_iff] at hlogged
    cases hclear
    by_cases hsession : sessionId = writer
    · subst hsession
      exact .empty hlogged fun id position hid => ((hplaces id position).mp hid).2 rfl
    · exact h.frame rfl (by simp [hsession]) fun id position => by
        rw [hplaces, and_iff_left hsession]

/-- A session is created, with an empty log. -/
theorem Sound.create (h : Sound imported db sessionId)
    (hnone : db.eventSequence writer = none) (sequence : Nat) : Sound imported
      { db with eventSequence := update db.eventSequence writer (some sequence) }
      sessionId := by
  by_cases hsession : sessionId = writer
  · subst hsession
    refine .empty (h.absent hnone) fun id position hid => ?_
    obtain ⟨m, hm, -⟩ := h.bounded id position hid
    cases hnone.symm.trans hm
  · exact h.frame rfl (update_of_ne hsession _ _) fun _ _ => Iff.rfl

/-! ## Operations -/

inductive Operation
  | create (sessionId : Id) (sequence : Nat)
  | append (input : Append)
  | replicate (sessionId : Id) (now : Date) (events : List StoredSessionEvent)
  | importSnapshot (sessionId : Id) (now clock : Date) (snapshot : SessionSnapshot)
  | clearUnlogged (sessionId : Id)

structure State where
  store : Store
  /-- The places snapshots brought: the session, the item and its position. -/
  imported : List (Id × Id × Nat)

def State.initial : State := ⟨⟨Db.empty, []⟩, []⟩

/-- An operation in a transaction of its own; one that throws changes nothing. -/
def step (metadataOk : Json → Bool) (s : State) : Operation → Option State
  | .create sessionId sequence =>
    if s.store.db.eventSequence sessionId = none then
      some { s with
        store :=
          { db := { s.store.db with
              eventSequence :=
                update s.store.db.eventSequence sessionId (some sequence) }
            sessions := sessionId :: s.store.sessions } }
    else none
  | .append input => (append s.store.db input).map fun db => { s with store := { s.store with db } }
  | .replicate sessionId now events =>
    match replicate metadataOk now s.store sessionId events with
    | .ok (store, _) => some { s with store }
    | .error _ => none
  | .importSnapshot sessionId now clock snapshot =>
    match importSnapshot metadataOk now clock s.store sessionId snapshot with
    | .ok store =>
      some { store
             imported := s.imported ++
              snapshot.items.map fun item => (sessionId, item.id, item.position) }
    | .error _ => none
  | .clearUnlogged sessionId => (clearUnlogged s.store sessionId).map fun store => { s with store }

/-- The items an operation writes are put where they belong. -/
def Proper (s : State) : Operation → Prop
  | .append input => ItemsKnown s.store.db input.sessionId [] input.events
  | .replicate sessionId _ events => ∀ n ∈ s.store.db.eventSequence sessionId,
      ItemsPlaced s.store.db sessionId [] (events.filter (n < ·.sequence))
  | .importSnapshot sessionId _ _ snapshot => SnapshotPlaced s.store.db sessionId snapshot
  | .create _ _ | .clearUnlogged _ => True

/-- A place a snapshot brought. -/
def State.Imported (s : State) (sessionId id : Id) (position : Nat) : Prop :=
  (sessionId, id, position) ∈ s.imported

/-- What another copy sent is put where it says. -/
theorem ItemsPlaced.copied {batch : List StoredSessionEvent}
    (h : ItemsPlaced db sessionId known batch) (writer : Id) :
    ItemsPlaced db sessionId known (batch.map (copiedStored writer)) := by
  induction batch generalizing known with
  | nil => trivial
  | cons stored batch ih =>
    cases hevent : stored.event with
    | itemAdded item =>
      simp only [ItemsPlaced, map_cons, copiedStored, hevent] at h ⊢
      exact ⟨h.1, h.2.1, ih h.2.2⟩
    | itemChanged item =>
      simp only [ItemsPlaced, map_cons, copiedStored, hevent] at h ⊢
      exact ⟨h.1, ih h.2⟩
    | sessionChanged | turnChanged | attemptChanged | itemTextAppended | requestChanged
    | providerThreadChanged =>
      simp only [ItemsPlaced, map_cons, copiedStored, hevent] at h ⊢
      exact ih h

/-- **Every operation that puts its items in place keeps the invariant of every session.** -/
theorem sound_step {s s' : State}
    (h : ∀ sessionId, Sound s.Imported s.store.db sessionId) (hproper : Proper s op)
    (hstep : step metadataOk s op = some s') (sessionId : Id) :
    Sound s'.Imported s'.store.db sessionId := by
  cases op with
  | create writer sequence =>
    rw [step, ite_none_right_eq_some, some.injEq] at hstep
    obtain ⟨hnone, rfl⟩ := hstep
    exact (h sessionId).create hnone sequence
  | append input =>
    rw [step, append, Option.map_map, map_eq_some_iff] at hstep
    obtain ⟨n, hsequence, rfl⟩ := hstep
    refine (h sessionId).batch input.now hsequence
      (fun stored => placeAll_sessionId) ?_ (forall_mem_nil _)
      (ItemsKnown.currentTurns hproper |>.placeAll _ _ _ _)
    rw [placeAll_sequence, placeAll_length]
  | replicate writer now events =>
    rw [step] at hstep
    split at hstep
    · rename_i store sequence hreplicate
      cases hstep
      obtain ⟨n, hsequence, hnumbered, _, rfl⟩ := replicate_log hreplicate
      refine (h sessionId).batch now hsequence (fun stored hstored => ?_) ?_ (forall_mem_nil _)
        ((hproper n hsequence).copied writer)
      · obtain ⟨_, _, rfl⟩ := mem_map.mp hstored
        rfl
      · rw [List.map_map, length_map, ← hnumbered]
        rfl
    · cases hstep
  | importSnapshot writer now clock snapshot =>
    rw [step] at hstep
    split at hstep
    · rename_i store himport
      cases hstep
      refine ((h sessionId).importSnapshot hproper himport).mono fun id position hbrought => ?_
      rcases hbrought with hold | ⟨rfl, item, hitem, rfl, rfl⟩
      · exact mem_append_left _ hold
      · exact mem_append_right _ (mem_map.mpr ⟨item, hitem, rfl⟩)
    · cases hstep
  | clearUnlogged writer =>
    rw [step, map_eq_some_iff] at hstep
    obtain ⟨store, hclear, rfl⟩ := hstep
    exact (h sessionId).clearUnlogged hclear

theorem placeOf_foldl_persist {batch : List StoredSessionEvent} (h : placeOf db id = some place) :
    placeOf (batch.foldl (Log.persist now) db) id = some place := by
  induction batch generalizing db with
  | nil => exact h
  | cons stored batch ih => exact ih (placeOf_persist_of_some h)

/-- **A position never changes**, whatever an operation says of the item. -/
theorem place_kept {s s' : State} {owner : Id} {position : Nat}
    (hplace : placeOf s.store.db id = some (owner, position))
    (hstep : step metadataOk s op = some s') (hkept : op ≠ .clearUnlogged owner) :
    placeOf s'.store.db id = some (owner, position) := by
  cases op with
  | create writer sequence =>
    rw [step, ite_none_right_eq_some, some.injEq] at hstep
    obtain ⟨_, rfl⟩ := hstep
    exact hplace
  | append input =>
    rw [step, append, Option.map_map, map_eq_some_iff] at hstep
    obtain ⟨_, _, rfl⟩ := hstep
    exact placeOf_foldl_persist hplace
  | replicate writer now events =>
    rw [step] at hstep
    split at hstep
    · rename_i hreplicate
      cases hstep
      obtain ⟨_, _, _, _, rfl⟩ := replicate_log hreplicate
      exact placeOf_foldl_persist hplace
    · cases hstep
  | importSnapshot writer now clock snapshot =>
    rw [step] at hstep
    split at hstep
    · rename_i himport
      cases hstep
      exact (placeOf_importSnapshot himport).1 id _ hplace
    · cases hstep
  | clearUnlogged writer =>
    rw [step, map_eq_some_iff] at hstep
    obtain ⟨store, hclear, rfl⟩ := hstep
    have hne : owner ≠ writer := fun heq => hkept (heq ▸ rfl)
    rw [placeOf_clearUnlogged hclear, hplace, filter_some, if_pos (decide_eq_true hne)]

theorem sound_initial (sessionId : Id) :
    Sound State.initial.Imported State.initial.store.db sessionId where
  numbered := fun _ h => (nomatch h)
  unique := fun _ _ _ h => (nomatch h)
  origin := fun _ _ h => (nomatch h)
  bounded := fun _ _ h => (nomatch h)
  present := fun _ h => (nomatch h)
  absent := fun _ => rfl

/--
**The log is numbered, and items stand where they were added.** In every run whose operations
put their items in place, every session's events are numbered up to its sequence and each item
has a position of its own, that of the event that added it; and no operation changes it, short
of emptying the copy.
-/
theorem log_numbered (metadataOk : Json → Bool) {s : State}
    (h : Runs.Reach (step metadataOk) Proper State.initial s) (sessionId : Id) :
    Sound s.Imported s.store.db sessionId ∧
      ∀ op s', step metadataOk s op = some s' → op ≠ .clearUnlogged sessionId →
        ∀ id position, placeOf s.store.db id = some (sessionId, position) →
          placeOf s'.store.db id = some (sessionId, position) := by
  refine ⟨?_, fun op s' hstep hkept id position hplace => place_kept hplace hstep hkept⟩
  exact h.invariant (I := fun s => ∀ sessionId, Sound s.Imported s.store.db sessionId)
    sound_initial (fun _ _ _ => sound_step) sessionId

/-- A notice of session 1, as its writer has it: positions are not the writer's to give. -/
def notice : Item where
  id := 2
  sessionId := 1
  turnId := none
  attemptId := none
  parentItemId := none
  position := 0
  status := .completed
  nativeRef := none
  createdAt := toISOString 0
  updatedAt := toISOString 0
  startedAt := none
  endedAt := none
  body := .notice "moved" "" ⟨"{}"⟩

/-- A batch of session 1. -/
def batch (events : List SessionEvent) : Operation :=
  .append { sessionId := 1, events, commandId := none, now := 0, clock := 0 }

/-- Added, then changed: the item stands at event 1. -/
theorem log_numbered_notice : ∃ s, Runs.Reach (step fun _ => true) Proper State.initial s ∧
      placeOf s.store.db 2 = some (1, 1) ∧ Sound s.Imported s.store.db 1 := by
  obtain ⟨s₁, h₁⟩ : ∃ s₁, step (fun _ => true) State.initial (.create 1 0) = some s₁ := ⟨_, rfl⟩
  obtain ⟨s, h⟩ : ∃ s, step (fun _ => true) s₁
      (batch [.itemAdded notice, .itemChanged notice]) = some s := by
    cases h₁
    exact ⟨_, rfl⟩
  have hproper : Proper s₁ (batch [.itemAdded notice, .itemChanged notice]) := by
    cases h₁
    exact ⟨nofun, .inr mem_cons_self, trivial⟩
  have hreach : Runs.Reach (step fun _ => true) Proper State.initial s :=
    (Runs.Reach.init.tail (show Proper _ (.create 1 0) from trivial) h₁).tail hproper h
  refine ⟨s, hreach, ?_, (log_numbered _ hreach 1).1⟩
  cases h₁
  cases h
  rfl

/--
Changed, then added: the change brings the item, to the position its writer left in it, and
the event that adds it is number 2.
-/
theorem item_changed_before_added :
    ¬ ∀ s, Runs.Reach (step fun _ => true) Runs.anyEvent State.initial s →
      ∀ sessionId, Sound s.Imported s.store.db sessionId := by
  intro hclaim
  obtain ⟨s, hs⟩ : ∃ s, Runs.exec (step fun _ => true) State.initial
      [.create 1 0, batch [.itemChanged notice, .itemAdded notice]] = some s := ⟨_, rfl⟩
  have hsound := hclaim s (Runs.reach_of_exec hs) 1
  cases hs
  rcases hsound.origin 2 0 rfl with hadded | himported
  · cases hadded
  · cases himported

end Catamorphic.Sessions.Numbering
