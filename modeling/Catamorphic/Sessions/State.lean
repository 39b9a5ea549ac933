import Catamorphic.Sessions.Protocol
import Mathlib.Data.List.DropRight
import Mathlib.Logic.Function.Basic

/-!
# The client's reducer

A client's view of one session, with stored events applied to it in order. Records by id
are functions to `Option`; items are a list in transcript order.
-/

namespace Catamorphic.Sessions.State

open Protocol Function

structure SessionState where
  sequence : Nat
  session : SessionFields
  turns : Id → Option Turn
  attempts : Id → Option Attempt
  /-- In transcript order. -/
  items : List Item
  requests : Id → Option RuntimeRequest
  providerThreads : Id → Option ProviderThread
  olderBefore : Option Nat
  /-- An event arrived out of order: the state stays as it was. -/
  stale : Bool

/-- The view of a session before its first event. -/
def SessionState.empty (session : SessionFields) : SessionState where
  sequence := 0
  session := session
  turns := fun _ => none
  attempts := fun _ => none
  items := []
  requests := fun _ => none
  providerThreads := fun _ => none
  olderBefore := none
  stale := false

/-- The records by id; a later one with the same id wins. -/
def byId {α : Type} (id : α → Id) (values : List α) : Id → Option α :=
  values.foldl (fun out value => update out (id value) (some value)) fun _ => none

/-- The sign of `compareItems a b` is positive: `a` stands after `b`. -/
def after (a b : Item) : Bool :=
  b.position < a.position || (a.position = b.position && b.id < a.id)

def sessionStateFromSnapshot (snapshot : SessionSnapshot) : SessionState where
  sequence := snapshot.sequence
  session := snapshot.session
  turns := byId Turn.id snapshot.turns
  attempts := byId Attempt.id snapshot.attempts
  items := snapshot.items.mergeSort fun a b => !after a b
  requests := byId RuntimeRequest.id snapshot.requests
  providerThreads := byId ProviderThread.id snapshot.providerThreads
  olderBefore := snapshot.olderBefore
  stale := false

/-- Put an item in place: replace it by id, or insert it in position order. -/
def upsertItem (items : List Item) (item : Item) : List Item :=
  match items.findIdx? (·.id = item.id) with
  | some index =>
    -- An item keeps the place it was added at.
    items.modify index fun existing => item.placedAt existing.position
  | none => items.rdropWhile (after · item) ++ item :: items.rtakeWhile (after · item)

/-- The item with `text` appended to its streamed field, or itself. -/
def appendText (item : Item) (field : StreamedField) (text : String) (at' : Stamp) : Item :=
  match field, item.body with
  | .output, .command command description output exitCode =>
    { item with
      body := .command command description (output ++ text) exitCode, updatedAt := at' }
  | .text, .assistantMessage old agentId =>
    { item with body := .assistantMessage (old ++ text) agentId, updatedAt := at' }
  | .text, .reasoning old => { item with body := .reasoning (old ++ text), updatedAt := at' }
  | _, _ => item

/-- The items with text appended to one of them, when it is there. -/
def appendItemText (items : List Item) (itemId : Id) (field : StreamedField) (text : String)
    (at' : Stamp) : List Item :=
  match items.findIdx? (·.id = itemId) with
  | some index => items.modify index (appendText · field text at')
  | none => items

def applyOne (state : SessionState) (stored : StoredSessionEvent) : SessionState :=
  let base := { state with sequence := stored.sequence }
  match stored.event with
  | .sessionChanged fields => { base with session := state.session.spread fields }
  | .turnChanged turn =>
    { base with turns := update state.turns turn.id (some turn) }
  | .attemptChanged attempt =>
    { base with attempts := update state.attempts attempt.id (some attempt) }
  | .itemAdded item | .itemChanged item => { base with items := upsertItem state.items item }
  | .itemTextAppended itemId field text at' =>
    { base with items := appendItemText state.items itemId field text at' }
  | .requestChanged request =>
    { base with requests := update state.requests request.id (some request) }
  | .providerThreadChanged thread =>
    { base with providerThreads := update state.providerThreads thread.id (some thread) }

/-- Apply stored events in order: skip those already covered, stop at a gap. -/
def applySessionEvents (state : SessionState) : List StoredSessionEvent → SessionState
  | [] => state
  | stored :: events =>
    if state.stale then state
    else if stored.sequence ≤ state.sequence then applySessionEvents state events
    else if stored.sequence ≠ state.sequence + 1 then { state with stale := true }
    else applySessionEvents (applyOne state stored) events

/-! ## Items by id -/

/-- The item an id stands for. -/
def itemById (items : List Item) (id : Id) : Option Item := items.find? (·.id = id)

variable {items : List Item} {id : Id} {index : Nat}

/-- Changing the item an id stands for, without its id, changes what that id stands for. -/
theorem itemById_modify {f : Item → Item} (hindex : items.findIdx? (·.id = id) = some index)
      (hf : ∀ item, item.id = id → (f item).id = id)
    (id' : Id) : itemById (items.modify index f) id' =
      if id' = id then (itemById items id).map f else itemById items id' := by
  induction items generalizing index with
  | nil => cases hindex
  | cons item items ih =>
    rw [List.findIdx?_cons] at hindex
    by_cases hid : item.id = id
    · simp only [hid, decide_true, if_true, Option.some.injEq] at hindex
      subst hindex
      by_cases hne : id' = id
      · simp [itemById, hne, hid, hf item hid]
      · simp [itemById, hid, hf item hid, Ne.symm hne, hne]
    · simp only [hid, decide_false, Bool.false_eq_true, if_false, Option.map_eq_some_iff] at hindex
      obtain ⟨rest, hrest, rfl⟩ := hindex
      have htail := ih hrest
      simp only [itemById] at htail ⊢
      by_cases hne : item.id = id'
      · have hid' : id' ≠ id := fun h => hid (hne.trans h)
        simp [hne, hid']
      · simpa [hne, hid] using htail

theorem itemById_none (hindex : items.findIdx? (·.id = id) = none) : itemById items id = none := by
  rw [List.findIdx?_eq_none_iff] at hindex
  exact List.find?_eq_none.mpr fun item hitem => by simpa using hindex item hitem

theorem itemById_some
    (hindex : items.findIdx? (·.id = id) = some index) : ∃ item, itemById items id = some item := by
  cases hitem : itemById items id with
  | some item => exact ⟨item, rfl⟩
  | none =>
    have hnone : items.findIdx? (·.id = id) = none := by
      rw [List.findIdx?_eq_none_iff]
      intro item hmem
      simpa using List.find?_eq_none.mp hitem item hmem
    rw [hnone] at hindex
    cases hindex

/-- Inserting an item changes nothing else. -/
theorem itemById_insert {item : Item} (p : Item → Bool)
    (hnone : itemById items item.id = none) (id : Id) :
    itemById (items.rdropWhile p ++ item :: items.rtakeWhile p) id =
      if id = item.id then some item else itemById items id := by
  have hsplit : items.rdropWhile p ++ items.rtakeWhile p = items :=
    List.rdropWhile_append_rtakeWhile
  have hparts : ∀ id, itemById items id =
      (itemById (items.rdropWhile p) id).or (itemById (items.rtakeWhile p) id) := by
    intro id
    conv_lhs => rw [itemById, ← hsplit, List.find?_append]
    rfl
  rw [itemById, List.find?_append, List.find?_cons]
  by_cases hid : id = item.id
  · subst hid
    rw [hparts, Option.or_eq_none_iff] at hnone
    simp only [itemById] at hnone
    simp [hnone.1]
  · rw [if_neg hid, hparts]
    simp [Ne.symm hid, itemById]

/-- **An item put in place stands under its id, where it was added.** -/
theorem itemById_upsertItem (items : List Item) (item : Item) (id : Id) :
    itemById (upsertItem items item) id = if id = item.id then
        some (item.placedAt (((itemById items item.id).map Item.position).getD item.position))
      else itemById items id := by
  unfold upsertItem
  cases hindex : items.findIdx? (·.id = item.id) with
  | none =>
    have hnone := itemById_none hindex
    rw [itemById_insert _ hnone, hnone]
    rfl
  | some index =>
    obtain ⟨old, hold⟩ := itemById_some hindex
    rw [itemById_modify hindex (fun existing _ => item.placedAt_id existing.position), hold]
    rfl

/-- Appended text changes the item it names and no other. -/
theorem itemById_appendItemText (items : List Item) (itemId : Id) (field : StreamedField)
    (text : String) (at' : Stamp) (id : Id) :
    itemById (appendItemText items itemId field text at') id =
      if id = itemId then (itemById items itemId).map (appendText · field text at')
      else itemById items id := by
  unfold appendItemText
  cases hindex : items.findIdx? (·.id = itemId) with
  | none =>
    by_cases hid : id = itemId
    · simp [hid, itemById_none hindex]
    · simp [hid]
  | some index =>
    refine itemById_modify hindex (fun item hitem => ?_) id
    unfold appendText
    split <;> exact hitem

/-! ## Events one after another -/

theorem applySessionEvents_append (state : SessionState)
    (events events' : List StoredSessionEvent) : applySessionEvents state (events ++ events') =
      applySessionEvents (applySessionEvents state events) events' := by
  have hstale : ∀ state : SessionState, state.stale = true → ∀ events,
      applySessionEvents state events = state := by
    intro state hstale events
    cases events with
    | nil => rfl
    | cons stored events => rw [applySessionEvents, if_pos hstale]
  induction events generalizing state with
  | nil => rfl
  | cons stored events ih =>
    rw [List.cons_append, applySessionEvents, applySessionEvents]
    split
    · rename_i h
      rw [hstale state h]
    · split
      · exact ih state
      · split
        · exact (hstale _ rfl events').symm
        · exact ih _

/-- The next event of a log is applied. -/
theorem applySessionEvents_next {state : SessionState} {stored : StoredSessionEvent}
    (hstale : state.stale = false) (hnext : stored.sequence = state.sequence + 1) :
    applySessionEvents state [stored] = applyOne state stored := by
  rw [applySessionEvents, hstale, if_neg Bool.false_ne_true, if_neg (by omega),
    if_neg (by simp [hnext]), applySessionEvents]

theorem applyOne_sequence (state : SessionState) (stored : StoredSessionEvent) :
    (applyOne state stored).sequence = stored.sequence := by
  unfold applyOne
  split <;> rfl

theorem applyOne_stale (state : SessionState) (stored : StoredSessionEvent) :
    (applyOne state stored).stale = state.stale := by
  unfold applyOne
  split <;> rfl

end Catamorphic.Sessions.State
