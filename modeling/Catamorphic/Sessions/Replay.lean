import Catamorphic.Sessions.State
import Mathlib.Data.List.Nodup
import Mathlib.Data.List.TakeWhile
import Mathlib.Data.Prod.Lex

/-!
# Replay

A client starts from a snapshot and is sent events of the log, perhaps twice, in pieces or
out of order. Whatever it is sent, it holds what the log folds to up to some event, or knows
that it missed one. A snapshot may list its entities in any order; the items are put in
transcript order, which the reducer keeps.
-/

namespace Catamorphic.Sessions.Replay

open Protocol State Function List

/-! ## Transcript order -/

/-- Where an item stands: by its position, then by its id. -/
def place (item : Item) : Lex (Nat × Nat) := toLex (item.position, item.id)

theorem after_iff (a b : Item) : after a b = true ↔ place b < place a := by
  rw [place, place, Prod.Lex.toLex_lt_toLex, @eq_comm _ b.position]
  simp only [State.after, Bool.or_eq_true, Bool.and_eq_true, decide_eq_true_eq]

/-- The items stand in transcript order, each id once. -/
structure Ordered (items : List Item) : Prop where
  order : items.Pairwise fun a b => place a < place b
  ids : (items.map Item.id).Nodup

theorem ordered_nil : Ordered [] := ⟨.nil, nodup_nil⟩

variable {items : List Item} {index : Nat}

/-- Only the places of the items matter. -/
theorem Ordered.congr {items' : List Item} (h : Ordered items)
    (hplaces : items'.map place = items.map place) : Ordered items' := by
  have hids : items'.map Item.id = items.map Item.id := by
    have := congrArg (List.map fun p => (ofLex p).2) hplaces
    rwa [map_map, map_map] at this
  refine ⟨?_, hids ▸ h.ids⟩
  rw [← pairwise_map, hplaces, pairwise_map]
  exact h.order

/-- A changed item that keeps its place leaves all of them in place. -/
theorem places_modify {f : Item → Item} (hf : ∀ item ∈ items[index]?, place (f item) = place item) :
    (items.modify index f).map place = items.map place := by
  induction items generalizing index with
  | nil => cases index <;> rfl
  | cons item items ih =>
    cases index with
    | zero => rw [modify_zero_cons, map_cons, map_cons, hf item rfl]
    | succ index => rw [modify_succ_cons, map_cons, map_cons, ih hf]

theorem id_of_findIdx? {items : List Item} {id : Id}
    (hindex : items.findIdx? (·.id = id) = some index) : ∀ item ∈ items[index]?, item.id = id := by
  intro item hitem
  obtain ⟨hlt, hmatch, _⟩ := List.findIdx?_eq_some_iff_getElem.mp hindex
  rw [List.getElem?_eq_getElem hlt, Option.mem_some] at hitem
  subst hitem
  exact of_decide_eq_true hmatch

/-- In order, what is not after an item stands in front of all that is. -/
theorem mem_rdropWhile (h : Ordered items) {item other : Item}
    (hother : other ∈ items.rdropWhile (after · item)) : place other ≤ place item := by
  rcases eq_nil_or_concat' (items.rdropWhile (after · item)) with hnil | ⟨front, last, hlast⟩
  · rw [hnil] at hother
    cases hother
  · have hlast' : place last ≤ place item := by
      have hne : items.rdropWhile (after · item) ≠ [] := by simp [hlast]
      have hnot := rdropWhile_last_not (after · item) items hne
      simp only [hlast, getLast_append_singleton, after_iff] at hnot
      exact not_lt.mp hnot
    have hpair := h.order.sublist (List.rdropWhile_prefix (after · item) (l := items)).sublist
    rw [hlast] at hpair hother
    rcases mem_append.mp hother with hother | hother
    · have hbefore := (pairwise_append.mp hpair).2.2 other hother last mem_cons_self
      exact hbefore.le.trans hlast'
    · rw [mem_singleton.mp hother]
      exact hlast'

/-- **An item put in place leaves the items in order.** -/
theorem Ordered.upsertItem (h : Ordered items) (item : Item) : Ordered (upsertItem items item) := by
  unfold State.upsertItem
  split
  · rename_i index hindex
    refine h.congr (places_modify fun existing hexisting => ?_)
    rw [place, place, Item.placedAt_id, id_of_findIdx? hindex existing hexisting]
    rfl
  · rename_i hindex
    have hfresh : ∀ other ∈ items, other.id ≠ item.id := by
      intro other hother heq
      have := List.findIdx?_eq_none_iff.mp hindex other hother
      simp [heq] at this
    have hsplit : items.rdropWhile (after · item) ++ items.rtakeWhile (after · item) = items :=
      rdropWhile_append_rtakeWhile
    have hperm : (items.rdropWhile (after · item) ++ item :: items.rtakeWhile (after · item)).Perm
        (item :: items) := by
      conv_rhs => rw [← hsplit]
      exact perm_middle
    refine ⟨?_, ?_⟩
    · have hfront : ∀ other ∈ items.rdropWhile (after · item), place other < place item := by
        intro other hother
        have hmem : other ∈ items := hsplit ▸ mem_append_left _ hother
        refine lt_of_le_of_ne (mem_rdropWhile h hother) fun heq => hfresh other hmem ?_
        exact congrArg (fun p => (ofLex p).2) heq
      have hrest : ∀ other ∈ items.rtakeWhile (after · item), place item < place other :=
        fun other hother => (after_iff other item).mp
          (mem_rtakeWhile_imp (p := (after · item)) hother)
      have hpair := h.order
      rw [← hsplit, pairwise_append] at hpair
      refine pairwise_append.mpr ⟨hpair.1, pairwise_cons.mpr ⟨hrest, hpair.2.1⟩, ?_⟩
      intro other hother other' hother'
      rcases mem_cons.mp hother' with rfl | hother'
      · exact hfront other hother
      · exact hpair.2.2 other hother other' hother'
    · refine (hperm.map Item.id).nodup_iff.mpr (nodup_cons.mpr ⟨?_, h.ids⟩)
      rw [mem_map]
      exact fun ⟨other, hother, heq⟩ => hfresh other hother heq

theorem Ordered.appendItemText (h : Ordered items) (itemId : Id) (field : StreamedField)
    (text : String) (at' : Stamp) : Ordered (appendItemText items itemId field text at') := by
  unfold State.appendItemText
  split
  · refine h.congr (places_modify fun item _ => ?_)
    unfold appendText
    split <;> rfl
  · exact h

/-! ## Logs and what they fold to -/

/-- The events of a log are numbered 1, 2 and so on. -/
def Gapless (log : List StoredSessionEvent) : Prop :=
  log.map StoredSessionEvent.sequence = List.range' 1 log.length

/-- A view with the events of a log applied that come after it, the `k`-th the last of them. -/
def upTo (start : SessionState) (log : List StoredSessionEvent) (k : Nat) : SessionState :=
  ((log.take k).drop start.sequence).foldl applyOne start

/-- What the first `k` events of a session's log come to. -/
def foldLog (session : SessionFields) (log : List StoredSessionEvent) (k : Nat) : SessionState :=
  (log.take k).foldl applyOne (.empty session)

variable {k : Nat} {state : SessionState} {α : Type} {records : Id → Option α} {values : List α}
  {id : α → Id}

section Log

variable {log : List StoredSessionEvent} {start : SessionState}

theorem Gapless.sequence (hlog : Gapless log) (hk : k < log.length) : log[k].sequence = k + 1 := by
  have hget : (log.map StoredSessionEvent.sequence)[k]? = (List.range' 1 log.length)[k]? := by
    rw [hlog]
  rw [List.getElem?_map, List.getElem?_eq_getElem hk, List.getElem?_range' hk] at hget
  simpa [Nat.add_comm] using hget

/-- An event of the log is the one its number says. -/
theorem Gapless.eq_of_mem (hlog : Gapless log) {stored : StoredSessionEvent} (hmem : stored ∈ log)
    (hnumber : stored.sequence = k + 1) : ∃ hk : k < log.length, log[k] = stored := by
  obtain ⟨i, hi, rfl⟩ := getElem_of_mem hmem
  have := hlog.sequence hi
  obtain rfl : i = k := by omega
  exact ⟨hi, rfl⟩

theorem upTo_self (start : SessionState) (log : List StoredSessionEvent) :
    upTo start log start.sequence = start := by
  rw [upTo, drop_eq_nil_of_le (length_take_le _ _), foldl_nil]

/-- One event more. -/
theorem upTo_succ (hstart : start.sequence ≤ k) (hk : k < log.length) :
    upTo start log (k + 1) = applyOne (upTo start log k) log[k] := by
  have hlength : start.sequence ≤ (log.take k).length := by
    rw [length_take]
    omega
  rw [upTo, take_succ_eq_append_getElem hk, drop_append_of_le_length hlength, foldl_append]
  rfl

theorem upTo_spec (hlog : Gapless log) (hfresh : start.stale = false) (hstart : start.sequence ≤ k)
    (hk : k ≤ log.length) : (upTo start log k).sequence = k ∧ (upTo start log k).stale = false := by
  induction k, hstart using Nat.le_induction with
  | base => rw [upTo_self]; exact ⟨rfl, hfresh⟩
  | succ k hstart ih =>
    obtain ⟨_, hstale⟩ := ih (Nat.le_of_succ_le hk)
    rw [upTo_succ hstart hk, applyOne_sequence, applyOne_stale, hlog.sequence hk]
    exact ⟨rfl, hstale⟩

/-- Applied in one go or event by event. -/
theorem applySessionEvents_upTo (hlog : Gapless log) (hfresh : start.stale = false) {n : Nat}
    (hstart : start.sequence ≤ n) (hn : n ≤ log.length) :
    applySessionEvents start ((log.take n).drop start.sequence) = upTo start log n := by
  induction n, hstart using Nat.le_induction with
  | base =>
    rw [upTo_self, drop_eq_nil_of_le (length_take_le _ _)]
    rfl
  | succ n hstart ih =>
    have hlength : start.sequence ≤ (log.take n).length := by
      rw [length_take]
      omega
    obtain ⟨hsequence, hstale⟩ := upTo_spec hlog hfresh hstart (Nat.le_of_succ_le hn)
    rw [take_succ_eq_append_getElem hn, drop_append_of_le_length hlength,
      applySessionEvents_append, ih (Nat.le_of_succ_le hn), upTo_succ hstart hn]
    refine applySessionEvents_next hstale ?_
    rw [hsequence, hlog.sequence hn]

/-! ## Whatever a client is sent -/

/-- A view holds what the log comes to up to some event, or has missed one since. -/
def Holds (start : SessionState) (log : List StoredSessionEvent) (state : SessionState) : Prop :=
  ∃ k, start.sequence ≤ k ∧ k ≤ log.length ∧
    (state = upTo start log k ∨ state = { upTo start log k with stale := true })

/-- Every event of the log leaves it so: it is covered, it is the next, or one is missing. -/
theorem Holds.applySessionEvents (hlog : Gapless log) (hfresh : start.stale = false)
    (h : Holds start log state) {batch : List StoredSessionEvent}
    (hbatch : ∀ stored ∈ batch, stored ∈ log) :
    Holds start log (applySessionEvents state batch) := by
  induction batch generalizing state with
  | nil => exact h
  | cons stored batch ih =>
    have hrest : ∀ stored ∈ batch, stored ∈ log := (List.forall_mem_cons.mp hbatch).2
    obtain ⟨k, hstart, hk, rfl | rfl⟩ := h
    · obtain ⟨hsequence, hstale⟩ := upTo_spec hlog hfresh hstart hk
      rw [State.applySessionEvents, if_neg (by rw [hstale]; exact Bool.false_ne_true)]
      split
      · exact ih ⟨k, hstart, hk, .inl rfl⟩ hrest
      · split
        · exact ⟨k, hstart, hk, .inr rfl⟩
        · rename_i hnext
          rw [hsequence, not_not] at hnext
          obtain ⟨hlt, heq⟩ := hlog.eq_of_mem (hbatch stored mem_cons_self) hnext
          rw [← heq, ← upTo_succ hstart hlt]
          exact ih ⟨k + 1, Nat.le_succ_of_le hstart, hlt, .inl rfl⟩ hrest
    · rw [State.applySessionEvents, if_pos rfl]
      exact ⟨k, hstart, hk, .inr rfl⟩

theorem holds_batches (hlog : Gapless log) (hfresh : start.stale = false)
    (hstart : start.sequence ≤ log.length) {batches : List (List StoredSessionEvent)}
    (hbatches : ∀ batch ∈ batches, ∀ stored ∈ batch, stored ∈ log) :
    Holds start log (batches.foldl applySessionEvents start) := by
  have hrun : ∀ (batches : List (List StoredSessionEvent)) (state : SessionState),
      (∀ batch ∈ batches, ∀ stored ∈ batch, stored ∈ log) → Holds start log state →
      Holds start log (batches.foldl State.applySessionEvents state) := by
    intro batches
    induction batches with
    | nil => exact fun state _ h => h
    | cons batch batches ih =>
      intro state hbatches h
      exact ih _ (List.forall_mem_cons.mp hbatches).2
        (h.applySessionEvents hlog hfresh (hbatches batch mem_cons_self))
  refine hrun batches start hbatches ⟨start.sequence, le_rfl, hstart, .inl ?_⟩
  exact (upTo_self start log).symm

end Log

/-! ## Snapshots -/

/-- The values are the records, each once, in any order. -/
def ListsRecords {α : Type} (id : α → Id) (values : List α) (records : Id → Option α) : Prop :=
  (values.map id).Nodup ∧ ∀ value, value ∈ values ↔ records (id value) = some value

/-- A snapshot that lists the whole of a view. -/
structure Lists (snapshot : SessionSnapshot) (state : SessionState) : Prop where
  sequence : snapshot.sequence = state.sequence
  session : snapshot.session = state.session
  turns : ListsRecords Turn.id snapshot.turns state.turns
  attempts : ListsRecords Attempt.id snapshot.attempts state.attempts
  items : snapshot.items.Perm state.items
  requests : ListsRecords RuntimeRequest.id snapshot.requests state.requests
  providerThreads :
    ListsRecords ProviderThread.id snapshot.providerThreads state.providerThreads
  olderBefore : snapshot.olderBefore = state.olderBefore

/-- Every record stands under its own id. -/
def Keyed {α : Type} (id : α → Id) (records : Id → Option α) : Prop :=
  ∀ i, ∀ value ∈ records i, id value = i

theorem keyed_none (id : α → Id) : Keyed id fun _ => none := by
  intro i value hvalue
  cases hvalue

theorem keyed_update (h : Keyed id records)
    (value : α) : Keyed id (update records (id value) (some value)) := by
  intro i other hother
  by_cases hi : i = id value
  · rw [hi, update_self, Option.mem_some] at hother
    rw [hi, hother]
  · rw [update_of_ne hi] at hother
    exact h i other hother

/-- What `byId` holds under an id: the last value with that id, or what was there. -/
theorem byId_foldl (id : α → Id) (hnodup : (values.map id).Nodup)
    (out : Id → Option α) (i : Id) : (∃ value ∈ values, id value = i ∧
      values.foldl (fun out value => update out (id value) (some value)) out i = some value) ∨
    ((∀ value ∈ values, id value ≠ i) ∧
      values.foldl (fun out value => update out (id value) (some value)) out i = out i) := by
  induction values generalizing out with
  | nil => exact .inr ⟨nofun, rfl⟩
  | cons value values ih =>
    rw [map_cons, nodup_cons] at hnodup
    rcases ih hnodup.2 (update out (id value) (some value)) with
      ⟨found, hfound, hid, heq⟩ | ⟨hnone, heq⟩
    · exact .inl ⟨found, mem_cons_of_mem _ hfound, hid, heq⟩
    · rw [foldl_cons, heq]
      by_cases hi : id value = i
      · exact .inl ⟨value, mem_cons_self, hi, hi ▸ update_self ..⟩
      · refine .inr ⟨fun other hother => ?_, update_of_ne (Ne.symm hi) ..⟩
        rcases mem_cons.mp hother with rfl | hother
        · exact hi
        · exact hnone other hother

/-- **The records of a snapshot are those it lists.** -/
theorem byId_lists (hkeyed : Keyed id records) (hlists : ListsRecords id values records) :
    byId id values = records := by
  funext i
  rcases byId_foldl id hlists.1 (fun _ => none) i with ⟨value, hvalue, hid, heq⟩ | ⟨hnone, heq⟩
  · rw [byId, heq, ← hid, (hlists.2 value).mp hvalue]
  · rw [byId, heq]
    cases hrecord : records i with
    | none => rfl
    | some value =>
      have hid := hkeyed i value hrecord
      exact absurd hid (hnone value ((hlists.2 value).mpr (hid ▸ hrecord)))

/-- Items in order are what sorting any list of them gives. -/
theorem mergeSort_of_ordered {listed : List Item} (h : Ordered items) (hperm : listed.Perm items) :
    (listed.mergeSort fun a b => !after a b) = items := by
  have hle : ∀ a b : Item, (!after a b) = true ↔ place a ≤ place b := by
    intro a b
    rw [Bool.not_eq_true', ← Bool.not_eq_true, after_iff, not_lt]
  have hsorted := @pairwise_mergeSort _ (fun a b => !after a b)
    (fun a b c hab hbc => (hle a c).mpr (((hle a b).mp hab).trans ((hle b c).mp hbc)))
    (fun a b => by
      rw [Bool.or_eq_true, hle, hle]
      exact le_total _ _) listed
  refine @List.Perm.eq_of_pairwise _ (fun a b => (!after a b) = true) _ _ ?_ hsorted
    (h.order.imp fun hab => (hle _ _).mpr hab.le) ((mergeSort_perm _ _).trans hperm)
  intro a b ha hb hab hba
  have hplace : place a = place b := le_antisymm ((hle a b).mp hab) ((hle b a).mp hba)
  have ha' : a ∈ items := hperm.mem_iff.mp (mem_mergeSort.mp ha)
  exact inj_on_of_nodup_map h.ids ha' hb (congrArg (fun p => (ofLex p).2) hplace)

/-- What every view that events were folded into keeps. -/
structure Sound (state : SessionState) : Prop where
  fresh : state.stale = false
  turns : Keyed Turn.id state.turns
  attempts : Keyed Attempt.id state.attempts
  items : Ordered state.items
  requests : Keyed RuntimeRequest.id state.requests
  providerThreads : Keyed ProviderThread.id state.providerThreads

theorem sound_empty (session : SessionFields) : Sound (.empty session) :=
  ⟨rfl, keyed_none _, keyed_none _, ordered_nil, keyed_none _, keyed_none _⟩

theorem Sound.applyOne (h : Sound state) (stored : StoredSessionEvent) :
    Sound (applyOne state stored) := by
  unfold State.applyOne
  split
  · exact { h with }
  · exact { h with turns := keyed_update h.turns _ }
  · exact { h with attempts := keyed_update h.attempts _ }
  · exact { h with items := h.items.upsertItem _ }
  · exact { h with items := h.items.upsertItem _ }
  · exact { h with items := h.items.appendItemText _ _ _ _ }
  · exact { h with requests := keyed_update h.requests _ }
  · exact { h with providerThreads := keyed_update h.providerThreads _ }

theorem sound_foldLog (session : SessionFields) (log : List StoredSessionEvent) (k : Nat) :
    Sound (foldLog session log k) := by
  have hrun : ∀ (events : List StoredSessionEvent) {state : SessionState}, Sound state →
      Sound (events.foldl State.applyOne state) := by
    intro events
    induction events with
    | nil => exact fun h => h
    | cons stored events ih => exact fun h => ih (h.applyOne stored)
  exact hrun (log.take k) (sound_empty session)

/-- **A snapshot that lists a view gives that view**, in whatever order it lists it. -/
theorem sessionStateFromSnapshot_lists {snapshot : SessionSnapshot} (h : Sound state)
    (hlists : Lists snapshot state) : sessionStateFromSnapshot snapshot = state := by
  rw [sessionStateFromSnapshot, hlists.sequence, hlists.session, hlists.olderBefore,
    byId_lists h.turns hlists.turns, byId_lists h.attempts hlists.attempts,
    byId_lists h.requests hlists.requests, byId_lists h.providerThreads hlists.providerThreads,
    mergeSort_of_ordered h.items hlists.items, ← h.fresh]

/-- What a log folds to may be folded from any of its prefixes. -/
theorem upTo_foldLog {session : SessionFields} {log : List StoredSessionEvent} (hlog : Gapless log)
    {s : Nat} (hs : s ≤ k) (hk : k ≤ log.length) :
    (foldLog session log s).sequence = s ∧ upTo (foldLog session log s) log k = foldLog session log
      k := by
  have hsequence : (foldLog session log s).sequence = s := by
    exact (upTo_spec hlog rfl (Nat.zero_le s) (hs.trans hk)).1
  refine ⟨hsequence, ?_⟩
  rw [upTo, hsequence, foldLog, foldLog, ← foldl_append]
  conv_rhs => rw [← take_append_drop s (log.take k), take_take, min_eq_left hs]

/-! ## Convergence -/

/--
**Replay converges.** A client that starts from a snapshot of what the log comes to at `s`,
and is sent any batches of the log's events, holds what the log comes to at some `k ≥ s`, or
is stale; and sent the events after `s` it has what a later snapshot has. The same of a
snapshot that lists only a part: its view has the events after it applied.
-/
theorem replay_converges (session : SessionFields) {log : List StoredSessionEvent}
    (hlog : Gapless log) : (∀ snapshot : SessionSnapshot, snapshot.sequence ≤ log.length →
      ∀ batches : List (List StoredSessionEvent),
        (∀ batch ∈ batches, ∀ stored ∈ batch, stored ∈ log) →
        Holds (sessionStateFromSnapshot snapshot) log
          (batches.foldl applySessionEvents (sessionStateFromSnapshot snapshot))) ∧
    ∀ (s : Nat) (snapshot : SessionSnapshot), s ≤ log.length →
      Lists snapshot (foldLog session log s) →
      (∀ batches : List (List StoredSessionEvent),
        (∀ batch ∈ batches, ∀ stored ∈ batch, stored ∈ log) →
        ∃ k, s ≤ k ∧ k ≤ log.length ∧
          (batches.foldl applySessionEvents (sessionStateFromSnapshot snapshot) =
              foldLog session log k ∨
            batches.foldl applySessionEvents (sessionStateFromSnapshot snapshot) =
              { foldLog session log k with stale := true })) ∧
      ∀ (n : Nat) (snapshot' : SessionSnapshot), s ≤ n → n ≤ log.length →
        Lists snapshot' (foldLog session log n) →
        applySessionEvents (sessionStateFromSnapshot snapshot) ((log.take n).drop s) =
          sessionStateFromSnapshot snapshot' := by
  refine ⟨fun snapshot hs batches => holds_batches hlog rfl hs, ?_⟩
  intro s snapshot hs hlists
  have hstart := sessionStateFromSnapshot_lists (sound_foldLog session log s) hlists
  have hsequence : (foldLog session log s).sequence = s := (upTo_foldLog hlog le_rfl hs).1
  have hfresh := (sound_foldLog session log s).fresh
  rw [hstart]
  refine ⟨fun batches hbatches => ?_, fun n snapshot' hn hn' hlists' => ?_⟩
  · obtain ⟨k, hk, hk', hview⟩ := holds_batches hlog hfresh (hsequence.symm ▸ hs) hbatches
    rw [hsequence] at hk
    rw [(upTo_foldLog hlog hk hk').2] at hview
    exact ⟨k, hk, hk', hview⟩
  · rw [sessionStateFromSnapshot_lists (sound_foldLog session log n) hlists',
      ← (upTo_foldLog hlog hn hn').2,
      ← applySessionEvents_upTo hlog hfresh (hsequence.symm ▸ hn) hn', hsequence]

/-- A reply of session 1 that has come as far as `text`. -/
def reply (text : String) : Item where
  id := 2
  sessionId := 1
  turnId := none
  attemptId := none
  parentItemId := none
  position := 1
  status := .inProgress
  nativeRef := none
  createdAt := toISOString 0
  updatedAt := toISOString 0
  startedAt := none
  endedAt := none
  body := .assistantMessage text none

/-- A reply is added, and some text streamed into it. -/
def replyLog : List StoredSessionEvent :=
  [⟨1, 1, toISOString 0, none, .itemAdded (reply "")⟩,
    ⟨1, 2, toISOString 0, none, .itemTextAppended 2 .text "Hi" (toISOString 0)⟩]

def replySnapshot (sequence : Nat) (text : String) : SessionSnapshot where
  sequence := sequence
  session := .created 1 1 (toISOString 0)
  turns := []
  attempts := []
  items := [reply text]
  requests := []
  providerThreads := []
  olderBefore := none

/-- The text is appended once, though it is sent twice and with the event before it. -/
theorem replay_converges_reply :
    applySessionEvents (sessionStateFromSnapshot (replySnapshot 1 "")) (replyLog.drop 1) =
        sessionStateFromSnapshot (replySnapshot 2 "Hi") ∧
      ∃ k, 1 ≤ k ∧ k ≤ 2 ∧ ([replyLog, replyLog.drop 1].foldl applySessionEvents
            (sessionStateFromSnapshot (replySnapshot 1 "")) =
            foldLog (.created 1 1 (toISOString 0)) replyLog k ∨
          [replyLog, replyLog.drop 1].foldl applySessionEvents
            (sessionStateFromSnapshot (replySnapshot 1 "")) =
            { foldLog (.created 1 1 (toISOString 0)) replyLog k with stale := true }) := by
  have hgapless : Gapless replyLog := rfl
  have hnone : ∀ {α : Type} (id : α → Id), ListsRecords id [] fun _ => none := fun id =>
    ⟨nodup_nil, fun value => ⟨nofun, nofun⟩⟩
  have hone : Lists (replySnapshot 1 "") (foldLog (.created 1 1 (toISOString 0)) replyLog 1) :=
    ⟨rfl, rfl, hnone _, hnone _, .refl _, hnone _, hnone _, rfl⟩
  have htwo : Lists (replySnapshot 2 "Hi") (foldLog (.created 1 1 (toISOString 0)) replyLog 2) :=
    ⟨rfl, rfl, hnone _, hnone _, .refl _, hnone _, hnone _, rfl⟩
  obtain ⟨hbatches, hsnapshot⟩ :=
    (replay_converges (.created 1 1 (toISOString 0)) hgapless).2 1 (replySnapshot 1 "") (by decide)
      hone
  refine ⟨hsnapshot 2 (replySnapshot 2 "Hi") (by decide) le_rfl htwo, ?_⟩
  refine hbatches [replyLog, replyLog.drop 1] fun batch hbatch stored hstored => ?_
  rw [mem_cons, mem_singleton] at hbatch
  rcases hbatch with rfl | rfl
  · exact hstored
  · exact mem_of_mem_drop hstored

end Catamorphic.Sessions.Replay
