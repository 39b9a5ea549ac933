import Catamorphic.Lib.Runs
import Catamorphic.Sessions.Replay

/-!
# Older pages

A client holds the end of a transcript and loads what is before it page by page, while the events
of the log go on coming in. A page shows its items as they stand when it is read, which may be
before or after the client's sequence. It merges right where the items on it stand the same at
both.
-/

namespace Catamorphic.Sessions.OlderPages

open Protocol State Replay Runs List

/-- A page of items, and where the next one ends. -/
structure Page where
  items : List Item
  olderBefore : Option Nat

/-- Items before `before`, the last of them. -/
def readItemsBefore (items : List Item) (before limit : Nat) : Page :=
  let rows := (items.filter fun item => item.position < before).reverse.take (limit + 1)
  let page := (rows.take limit).reverse
  ⟨page, if limit < rows.length then page.head?.map Item.position else none⟩

/-- Older items, merged in position order. -/
def withOlderItems (state : SessionState) (page : Page) : SessionState :=
  { state with
    items := page.items.foldl upsertItem state.items
    olderBefore := page.olderBefore }

/-! ## A client of a session -/

/-- The log of one session, and a client of it. -/
structure World where
  session : SessionFields
  log : List StoredSessionEvent
  client : SessionState

/-- What the log comes to at a sequence, which is what the server's rows hold then. -/
def World.at' (w : World) (sequence : Nat) : SessionState := foldLog w.session w.log sequence

def start (session : SessionFields) : World where
  session
  log := []
  client := .empty session

inductive Event
  | append (at' : Stamp) (commandId : Option String) (event : SessionEvent)
  /-- The client loads the session: as much of its items as the server picks, with `rest`. -/
  | load (rest : SessionSnapshot) (keep : Item → Bool)
  /-- It is sent an event of the log. -/
  | deliver (index : Nat)
  /-- A page that was read at a sequence is merged. -/
  | page (sequence before limit : Nat)

def step (w : World) : Event → Option World
  | .append at' commandId event =>
    some { w with
      log := w.log ++ [⟨w.session.id, w.log.length + 1, at', commandId, event⟩] }
  | .load rest keep =>
    some { w with
      client := sessionStateFromSnapshot { rest with
        sequence := w.log.length
        items := (w.at' w.log.length).items.filter keep } }
  | .deliver index =>
    (w.log[index]?).map fun stored =>
      { w with client := applySessionEvents w.client [stored] }
  | .page sequence before limit =>
    if sequence ≤ w.log.length then
      some { w with
        client := withOlderItems w.client
          (readItemsBefore (w.at' sequence).items before limit) }
    else none

/-! ## What the client holds -/

/-- Every item that the client holds is what the log folds to up to the client's sequence. -/
def World.Current (w : World) : Prop :=
  ∀ id item, itemById w.client.items id = some item →
    itemById (w.at' w.client.sequence).items id = some item

/-- A change to an item that the client does not hold names the item's place. -/
def Placed (w : World) (item : Item) : Prop :=
  itemById w.client.items item.id = none →
    ∀ held, itemById (w.at' w.client.sequence).items item.id = some held →
      held.position = item.position

/--
A page is merged at a sequence at which its items stand as they were read, and what the client
does not hold is not changed out of its place.
-/
def Timely (w : World) : Event → Prop
  | .append .. | .load .. => True
  | .deliver index =>
    ∀ stored, w.log[index]? = some stored → w.client.stale = false →
      stored.sequence = w.client.sequence + 1 →
        match stored.event with
        | .itemAdded item | .itemChanged item => Placed w item
        | _ => True
  | .page sequence before limit =>
    ∀ item ∈ (readItemsBefore (w.at' sequence).items before limit).items,
      itemById (w.at' w.client.sequence).items item.id = some item

open Option

structure Sound (w : World) : Prop where
  gapless : Gapless w.log
  sequence : w.client.sequence ≤ w.log.length
  current : w.Current

variable {w w' : World} {e : Event}

variable {items : List Item} {item : Item} {stored : StoredSessionEvent}

/-- In order, an item that is there stands under its id. -/
theorem itemById_of_mem (h : Ordered items) (hmem : item ∈ items) :
    itemById items item.id = some item := by
  cases hfound : itemById items item.id with
  | none => exact absurd (decide_eq_true rfl) (List.find?_eq_none.mp hfound item hmem)
  | some found =>
    have hid : found.id = item.id := by simpa using List.find?_some hfound
    have hfound' : found ∈ items := mem_of_find?_eq_some hfound
    exact congrArg some (inj_on_of_nodup_map h.ids hfound' hmem hid)

section

variable {fold : List Item} (h : ∀ id held, itemById items id = some held → itemById fold id = some
  held)
include h

/-- Items that are all some fold's stay so with one more of its items put in place. -/
theorem holds_upsertItem (hitem : itemById fold item.id = some item) (id : Id) (held : Item)
    (hheld : itemById (upsertItem items item) id = some held) : itemById fold id = some held := by
  rw [itemById_upsertItem] at hheld
  by_cases hid : id = item.id
  · rw [if_pos hid] at hheld
    cases hheld
    rw [hid, hitem]
    cases hold : itemById items item.id with
    | none => rfl
    | some old =>
      cases hitem.symm.trans (h item.id old hold)
      rfl
  · rw [if_neg hid] at hheld
    exact h id held hheld

omit h in
theorem holds_page {fold : List Item} (page : List Item)
    (hpage : ∀ item ∈ page, itemById fold item.id = some item)
    (h : ∀ id held, itemById items id = some held → itemById fold id = some held) :
    ∀ id held, itemById (page.foldl upsertItem items) id = some held →
      itemById fold id = some held := by
  induction page generalizing items with
  | nil => exact h
  | cons item page ih =>
    exact ih (fun other hother => hpage other (mem_cons_of_mem _ hother))
      (holds_upsertItem h (hpage item mem_cons_self))

/-- A new item is the same for the client and the fold, where it has the same place. -/
theorem holds_upsertBoth (hplaced : itemById items item.id = none →
      ∀ held, itemById fold item.id = some held → held.position = item.position) (id : Id)
    (held : Item) (hheld : itemById (upsertItem items item) id = some held) :
    itemById (upsertItem fold item) id = some held := by
  rw [itemById_upsertItem] at hheld ⊢
  by_cases hid : id = item.id
  · rw [if_pos hid] at hheld ⊢
    rw [← hheld]
    cases hold : itemById items item.id with
    | some old => rw [h item.id old hold]
    | none =>
      cases hfold : itemById fold item.id with
      | none => rfl
      | some old =>
        rw [map_some, getD_some, hplaced hold old hfold]
        rfl
  · rw [if_neg hid] at hheld ⊢
    exact h id held hheld

theorem holds_appendBoth {itemId : Id} {field : StreamedField} {text : String} {stamp : Stamp}
    (id : Id) (held : Item)
    (hheld : itemById (appendItemText items itemId field text stamp) id = some held) :
    itemById (appendItemText fold itemId field text stamp) id = some held := by
  rw [itemById_appendItemText] at hheld ⊢
  by_cases hid : id = itemId
  · rw [if_pos hid] at hheld ⊢
    obtain ⟨old, hold, rfl⟩ := map_eq_some_iff.mp hheld
    rw [h itemId old hold]
    rfl
  · rw [if_neg hid] at hheld ⊢
    exact h id held hheld

end

/-- The next event does to the items of the client what it does to those of the fold. -/
theorem holds_applyOne {state fold : SessionState}
    (h : ∀ id held, itemById state.items id = some held → itemById fold.items id = some held)
    (hplaced : ∀ item, stored.event = .itemAdded item ∨ stored.event = .itemChanged item →
      itemById state.items item.id = none →
        ∀ held, itemById fold.items item.id = some held → held.position = item.position) :
    ∀ id held, itemById (applyOne state stored).items id = some held →
      itemById (applyOne fold stored).items id = some held := by
  cases hevent : stored.event with
  | itemAdded item =>
    simp only [applyOne, hevent]
    exact holds_upsertBoth h (hplaced item (.inl hevent))
  | itemChanged item =>
    simp only [applyOne, hevent]
    exact holds_upsertBoth h (hplaced item (.inr hevent))
  | itemTextAppended itemId field text stamp =>
    simp only [applyOne, hevent]
    exact holds_appendBoth h
  | _ =>
    simp only [applyOne, hevent]
    exact h

variable {session : SessionFields} {log : List StoredSessionEvent}

/-- A log that goes on folds to the same up to where it was. -/
theorem foldLog_append {events : List StoredSessionEvent} {k : Nat} (hk : k ≤ log.length) :
    foldLog session (log ++ events) k = foldLog session log k := by
  rw [foldLog, foldLog, take_append_of_le_length hk]

theorem foldLog_succ {k : Nat} (hk : k < log.length) :
    foldLog session log (k + 1) = applyOne (foldLog session log k) log[k] := by
  rw [foldLog, foldLog, take_succ_eq_append_getElem hk, foldl_append]
  rfl

theorem gapless_append (h : Gapless log)
    (hnumber : stored.sequence = log.length + 1) : Gapless (log ++ [stored]) := by
  rw [Gapless, map_append, h, length_append, length_singleton,
    range'_1_concat, map_singleton, hnumber, Nat.add_comm]

theorem sound_start (session : SessionFields) : Sound (start session) where
  gapless := rfl
  sequence := Nat.le_refl _
  current := fun _ _ h => nomatch h

/-- **A delivered event is covered, applied, or known to come too soon.** -/
theorem Sound.deliver (h : Sound w) {index : Nat}
    (hstored : w.log[index]? = some stored) (htimely : Timely w (.deliver index)) :
    Sound { w with client := applySessionEvents w.client [stored] } := by
  obtain ⟨hindex, rfl⟩ := List.getElem?_eq_some_iff.mp hstored
  have hnumber := h.gapless.sequence hindex
  rw [applySessionEvents]
  split
  · exact ⟨h.gapless, h.sequence, h.current⟩
  · rename_i hfresh
    split
    · exact ⟨h.gapless, h.sequence, h.current⟩
    · split
      · exact ⟨h.gapless, h.sequence, h.current⟩
      · rename_i hnext
        rw [not_not] at hnext
        have hplaced := htimely _ hstored (Bool.not_eq_true _ ▸ hfresh) hnext
        obtain rfl : index = w.client.sequence := by omega
        refine ⟨h.gapless, ?_, fun id item hitem => ?_⟩
        · show (applyOne w.client _).sequence ≤ _
          rw [applyOne_sequence, hnumber]
          exact hindex
        · show itemById (foldLog w.session w.log (applyOne w.client _).sequence).items id = _
          rw [applyOne_sequence, hnumber, foldLog_succ hindex]
          refine holds_applyOne h.current (fun changed hchanged => ?_) id item hitem
          rcases hchanged with hevent | hevent <;>
          · rw [hevent] at hplaced
            exact hplaced

theorem Sound.step (h : Sound w) (htimely : Timely w e) (hs : step w e = some w') : Sound w' := by
  cases e with
  | append stamp commandId event =>
    cases hs
    refine ⟨gapless_append h.gapless rfl, ?_, fun id item hitem => ?_⟩
    · rw [length_append]
      exact Nat.le_add_right_of_le h.sequence
    · show itemById (foldLog w.session _ w.client.sequence).items id = _
      rw [foldLog_append h.sequence]
      exact h.current id item hitem
  | load rest keep =>
    cases hs
    refine ⟨h.gapless, Nat.le_refl _, fun id item hitem => ?_⟩
    have hmem : item ∈ ((w.at' w.log.length).items.filter keep).mergeSort
        fun a b => !after a b := mem_of_find?_eq_some hitem
    have hid : item.id = id := by simpa using List.find?_some hitem
    rw [mem_mergeSort] at hmem
    rw [← hid]
    exact itemById_of_mem (sound_foldLog w.session w.log w.log.length).items
      (mem_of_mem_filter hmem)
  | deliver index =>
    obtain ⟨stored, hstored, rfl⟩ := map_eq_some_iff.mp hs
    exact h.deliver hstored htimely
  | page sequence before limit =>
    rw [OlderPages.step] at hs
    split at hs
    · cases hs
      exact ⟨h.gapless, h.sequence, holds_page _ htimely h.current⟩
    · cases hs

/-- **What a client holds is current**, so long as its pages are merged in time. -/
theorem current_of_timely {session : SessionFields} (h : Reach step Timely (start session) w) :
    w.Current :=
  (h.invariant (sound_start session) fun _ _ _ hsound => hsound.step).current

def chat : SessionFields := .created 1 1 (toISOString 0)

def added : Event := .append (toISOString 0) none (.itemAdded (reply ""))

def streamed (text : String) : Event :=
  .append (toISOString 0) none (.itemTextAppended 2 .text text (toISOString 0))

/-- The client loads the session without its items. -/
def loaded : Event := .load (replySnapshot 0 "") fun _ => false

/-- The text of the reply, for the client and in the log. -/
def World.shows (w : World) : Option String × Option String :=
  let text item := match Item.body item with
    | .assistantMessage text _ => text
    | _ => ""
  ((itemById w.client.items 2).map text, (itemById (w.at' w.client.sequence).items 2).map text)

/-- A reply is streamed, the client loads the session at its end and then the page before it. -/
def readInTime : List Event := [added, streamed "Hi", loaded]

theorem current_of_timely_page : ∃ w w', exec step (start chat) readInTime = some w ∧
    step w (.page 2 3 10) = some w' ∧ w'.shows = (some "Hi", some "Hi") ∧ w'.Current := by
  have hrun : (exec step (start chat) readInTime).bind (fun w =>
      (step w (.page 2 3 10)).map World.shows) = some (some "Hi", some "Hi") := by decide +kernel
  obtain ⟨w, hw, hs⟩ := bind_eq_some_iff.mp hrun
  obtain ⟨w', hs, hshows⟩ := map_eq_some_iff.mp hs
  have hreach : Reach step Timely (start chat) w := reach_of_execAll (fun e he w => by
    simp only [readInTime, mem_cons, not_mem_nil, or_false] at he
    rcases he with rfl | rfl | rfl <;> trivial) hw
  refine ⟨w, w', hw, hs, hshows, current_of_timely (hreach.tail ?_ hs)⟩
  cases hw
  intro item hitem
  obtain rfl : item = reply "Hi" := mem_singleton.mp hitem
  rfl

/-! ## Where a page comes late -/

/-- A page is read, text is streamed to the client, and then the page is merged. -/
def readBefore : List Event := [added, loaded, streamed "Hi", .deliver 1, .page 1 3 10]

/-- A page is read and merged that has text which is streamed to the client after it. -/
def readAhead : List Event := [added, loaded, streamed "Hi", .page 2 3 10, .deliver 1]

example : (exec step (start chat) readAhead).map World.shows = some (some "HiHi", some "Hi") := by
  decide +kernel

/-- **The client misses text** that was streamed between the read of a page and its merge. -/
theorem late_page : ¬∀ session w, Reach step anyEvent (start session) w → w.Current := by
  intro hclaim
  have hrun : (exec step (start chat) readBefore).map World.shows = some (some "", some "Hi") := by
    decide +kernel
  obtain ⟨w, hw, hshows⟩ := map_eq_some_iff.mp hrun
  obtain ⟨hclient, hlog⟩ := Prod.mk.inj hshows
  obtain ⟨item, hitem, htext⟩ := map_eq_some_iff.mp hclient
  rw [hclaim chat w (reach_of_exec hw) 2 item hitem, map_some, htext] at hlog
  exact absurd (some.inj hlog) (by decide)

end Catamorphic.Sessions.OlderPages
