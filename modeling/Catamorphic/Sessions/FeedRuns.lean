import Catamorphic.Sessions.SessionFeed
import Mathlib.Data.List.Nodup

/-!
# A live stream has no gap

What a subscriber was sent takes its client from the sequence it asked from to the feed's
cursor for it: every list of events continues where the message before it ended, and no
snapshot is behind what came before. Two overlaps break this, and a run is restricted to the
steps without them: a tick under way when a stream is opened, that asked for the session from
a later cursor, and a snapshot that was read before a tick delivered events past it.
-/

namespace Catamorphic.Sessions.SessionFeed

open Protocol State Runs Function List Option

/-- The events stand one after another from the one after `n`. -/
def Run (n : Nat) (events : List StoredSessionEvent) : Prop :=
  events.map StoredSessionEvent.sequence = List.range' (n + 1) events.length

instance (n : Nat) (events : List StoredSessionEvent) : Decidable (Run n events) :=
  inferInstanceAs (Decidable (_ = _))

/-- The sequence a message takes a reader on to: no gap, no repetition, no step back. -/
def advance (n : Nat) : Message → Option Nat
  | .events events => if Run n events then some (n + events.length) else none
  | .reset snapshot => if n ≤ snapshot.sequence then some snapshot.sequence else none

/-- The events a message carries. -/
def Message.stored : Message → List StoredSessionEvent
  | .events list => list
  | .reset _ => []

/-- The snapshot a `subscribe` is about to send. -/
def Phase.snapshot? : Phase → Option SessionSnapshot
  | .read snapshot => some snapshot
  | _ => none

/--
No message overtakes another: a tick that goes on has asked for each session it brings events
of from no later than its subscribers' cursors, and a snapshot is no older than its
subscriber's.
-/
def InOrder (feed : Feed) : Action → Prop
  | .endTick index => ∀ tick ∈ feed.ticks[index]?, ∀ events ∈ tick.answer,
      ∀ subscriber ∈ feed.subscribers, subscriber.live →
        (∃ stored ∈ events, stored.sessionId = subscriber.sessionId) →
          ∀ cursor ∈ tick.cursors, cursor.1 = subscriber.sessionId → cursor.2 ≤ subscriber.after
  | .resume index => ∀ subscriber ∈ feed.subscribers[index]?,
      ∀ snapshot ∈ subscriber.phase.snapshot?, subscriber.after ≤ snapshot.sequence
  | _ => True

instance (feed : Feed) : ∀ action, Decidable (InOrder feed action)
  | .endTick index => inferInstanceAs (Decidable (∀ tick ∈ feed.ticks[index]?,
      ∀ events ∈ tick.answer, ∀ subscriber ∈ feed.subscribers, subscriber.live →
        (∃ stored ∈ events, stored.sessionId = subscriber.sessionId) →
          ∀ cursor ∈ tick.cursors, cursor.1 = subscriber.sessionId → cursor.2 ≤ subscriber.after))
  | .resume index => inferInstanceAs (Decidable (∀ subscriber ∈ feed.subscribers[index]?,
      ∀ snapshot ∈ subscriber.phase.snapshot?, subscriber.after ≤ snapshot.sequence))
  | .commit .. | .subscribe .. | .answerGap _ | .answerSnapshot .. | .unsubscribe _ | .beginTick
  | .answerTick _ | .close => inferInstanceAs (Decidable True)

/-! ## Events one after another -/

theorem run_nil (n : Nat) : Run n [] := rfl

variable {n : Nat} {events : List StoredSessionEvent}

theorem run_cons {stored : StoredSessionEvent} :
    Run n (stored :: events) ↔ stored.sequence = n + 1 ∧ Run (n + 1) events := by
  rw [Run, map_cons, length_cons, range'_succ, List.cons.injEq]
  rfl

variable {events' : List StoredSessionEvent}

theorem Run.append (h : Run n events) (h' : Run (n + events.length) events') :
    Run n (events ++ events') := by
  rw [Run, map_append, h, h', length_append, Nat.add_right_comm]
  exact range'_append_1

theorem Run.of_initial (h : Run n events) (hinitial : events' <+: events) : Run n events' := by
  induction events' generalizing n events with
  | nil => exact run_nil n
  | cons stored events' ih =>
    obtain ⟨rest, rfl⟩ := hinitial
    rw [cons_append, run_cons] at h
    exact run_cons.mpr ⟨h.1, ih h.2 ⟨rest, rfl⟩⟩

/-- What a later reader lacks of a run stands one after another too. -/
theorem Run.past {m : Nat} (h : Run n events) (hle : n ≤ m) :
    Run m (events.filter (m < ·.sequence)) := by
  induction events generalizing n with
  | nil => exact run_nil m
  | cons stored events ih =>
    rw [run_cons] at h
    rcases Nat.eq_or_lt_of_le hle with rfl | hlt
    · have hall : ∀ other ∈ stored :: events, decide (n < other.sequence) = true := by
        intro other hother
        have hmem : other.sequence ∈ (stored :: events).map StoredSessionEvent.sequence :=
          mem_map_of_mem hother
        rw [run_cons.mpr h, mem_range'_1] at hmem
        exact decide_eq_true (by omega)
      rw [filter_eq_self.mpr hall]
      exact run_cons.mpr h
    · rw [filter_cons_of_neg (by rw [decide_eq_true_eq, h.1]; omega)]
      exact ih h.2 hlt

theorem Run.last {last : StoredSessionEvent} (h : Run n events)
    (hlast : events.getLast? = some last) : last.sequence = n + events.length := by
  have hmapped : (events.map StoredSessionEvent.sequence).getLast? = some last.sequence := by
    rw [List.getLast?_map, hlast, map_some]
  cases events with
  | nil => cases hlast
  | cons stored events =>
    rw [h, length_cons, List.getLast?_range'] at hmapped
    have hsequence : n + 1 + events.length = last.sequence := by simpa using hmapped
    rw [length_cons]
    omega

variable {state : SessionState}

/-! ## The client -/

/-- Events one after another, from its sequence on, take a client to the last of them. -/
theorem applySessionEvents_run (hstale : state.stale = false) (h : Run state.sequence events) :
    (applySessionEvents state events).stale = false ∧
      (applySessionEvents state events).sequence = state.sequence + events.length := by
  induction events generalizing state with
  | nil => exact ⟨hstale, rfl⟩
  | cons stored events ih =>
    rw [run_cons] at h
    rw [applySessionEvents, hstale, if_neg Bool.false_ne_true, if_neg (by omega),
      if_neg (by simp [h.1])]
    have happlied := applyOne_sequence state stored
    obtain ⟨hfresh, hsequence⟩ :=
      ih ((applyOne_stale state stored).trans hstale) (by rw [happlied, h.1]; exact h.2)
    exact ⟨hfresh, by rw [hsequence, happlied, h.1, length_cons]; omega⟩

theorem mergeFresh_newer {current fresh : SessionState} (hfresh : fresh.stale = false)
    (hle : current.sequence ≤ fresh.sequence) : (mergeFresh current fresh).stale = false ∧
      (mergeFresh current fresh).sequence = fresh.sequence := by
  have hkept : ¬(!current.stale && decide (fresh.sequence < current.sequence)) = true := by
    rw [Bool.and_eq_true, decide_eq_true_eq]
    omega
  rw [mergeFresh, if_neg hkept]
  split
  · exact ⟨hfresh, rfl⟩
  · dsimp only
    split
    · exact ⟨hfresh, rfl⟩
    · exact ⟨hfresh, rfl⟩

variable {message : Message}

theorem advance_le {m : Nat} (h : advance n message = some m) : n ≤ m := by
  unfold advance at h
  split at h
  · rw [ite_none_right_eq_some, some.injEq] at h
    omega
  · rw [ite_none_right_eq_some, some.injEq] at h
    omega

/-- **A message that takes a reader on takes the client on**, to the same sequence. -/
theorem applyStreamMessage_advance (hstale : state.stale = false)
    (h : advance state.sequence message = some n) :
    (applyStreamMessage state message).stale = false ∧
      (applyStreamMessage state message).sequence = n := by
  cases message with
  | events events =>
    rw [advance, ite_none_right_eq_some, some.injEq] at h
    obtain ⟨hrun, rfl⟩ := h
    exact applySessionEvents_run hstale hrun
  | reset snapshot =>
    rw [advance, ite_none_right_eq_some, some.injEq] at h
    obtain ⟨hle, rfl⟩ := h
    exact mergeFresh_newer rfl hle

theorem foldl_applyStreamMessage {messages : List Message} (hstale : state.stale = false)
    (h : messages.foldlM advance state.sequence = some n) :
    (messages.foldl applyStreamMessage state).stale = false ∧
      (messages.foldl applyStreamMessage state).sequence = n ∧ state.sequence ≤ n := by
  induction messages generalizing state with
  | nil =>
    cases h
    exact ⟨hstale, rfl, le_rfl⟩
  | cons message messages ih =>
    rw [foldlM_cons, bind_eq_bind, bind_eq_some_iff] at h
    obtain ⟨m, hfirst, hrest⟩ := h
    obtain ⟨hstale', hsequence⟩ := applyStreamMessage_advance hstale hfirst
    obtain ⟨hfinal, hn, hle⟩ := ih hstale' (hsequence ▸ hrest)
    exact ⟨hfinal, hn, (advance_le hfirst).trans (hsequence ▸ hle)⟩

/-! ## What the queries answer -/

theorem eventsAfter_run {bytes : StoredSessionEvent → Nat} {log : List StoredSessionEvent}
    (hlog : Run 0 log) (h : eventsAfter bytes log n = some events) :
    Run n events ∧ events ⊆ log := by
  unfold eventsAfter at h
  dsimp only at h
  split at h
  · cases h
  · split at h
    · cases h
    · cases h
      exact ⟨(hlog.past (Nat.zero_le n)).of_initial (List.take_prefix _ _),
        List.Subset.trans (take_subset _ _) (filter_subset_self _)⟩

variable {cursors : List (Id × Nat)}

theorem addCursor_keys {subscriber : Subscriber} (h : (cursors.map Prod.fst).Nodup) :
    ((addCursor cursors subscriber).map Prod.fst).Nodup := by
  unfold addCursor
  split
  · rename_i hnone
    rw [lookup_eq_none_iff] at hnone
    rw [map_append, nodup_append]
    refine ⟨h, nodup_singleton _, ?_⟩
    intro id hid other hother hsame
    obtain ⟨cursor, hcursor, rfl⟩ := mem_map.mp hid
    obtain rfl : other = subscriber.sessionId := by simpa using hother
    exact absurd (hnone cursor hcursor) (by simp [hsame])
  · have hkeys : ∀ cursor : Id × Nat, (if cursor.1 = subscriber.sessionId then
        (cursor.1, min cursor.2 subscriber.after) else cursor).1 = cursor.1 := by
      intro cursor
      split <;> rfl
    rw [List.map_map, show Prod.fst ∘ _ = Prod.fst from funext hkeys]
    exact h

/-- A tick asks for each session once. -/
theorem cursorsOf_keys (subscribers : List Subscriber) :
    ((cursorsOf subscribers).map Prod.fst).Nodup := by
  have hfold : ∀ (subscribers : List Subscriber) (cursors : List (Id × Nat)),
      (cursors.map Prod.fst).Nodup → ((subscribers.foldl addCursor cursors).map
        Prod.fst).Nodup := by
    intro subscribers
    induction subscribers with
    | nil => exact fun _ h => h
    | cons subscriber subscribers ih => exact fun cursors h => ih _ (addCursor_keys h)
  exact hfold _ [] nodup_nil

/-- The logs hold each session's own events, numbered from 1. -/
structure Logged (logs : Id → List StoredSessionEvent) : Prop where
  numbered : ∀ sessionId, Run 0 (logs sessionId)
  own : ∀ sessionId, ∀ stored ∈ logs sessionId, stored.sessionId = sessionId

variable {logs logs' : Id → List StoredSessionEvent} {sessionId : Id}

/-- What is asked of one session among others is that session's. -/
theorem filter_flatMap_cursors (hlogs : Logged logs) (hkeys : (cursors.map Prod.fst).Nodup)
    (sessionId : Id) :
    (cursors.flatMap fun cursor => (logs cursor.1).filter (cursor.2 < ·.sequence)).filter
        (·.sessionId = sessionId) = [] ∨
      ∃ cursor ∈ cursors, cursor.1 = sessionId ∧
        (cursors.flatMap fun cursor => (logs cursor.1).filter (cursor.2 < ·.sequence)).filter
            (·.sessionId = sessionId) =
          (logs sessionId).filter (cursor.2 < ·.sequence) := by
  have hother : ∀ cursor : Id × Nat, cursor.1 ≠ sessionId →
      ((logs cursor.1).filter (cursor.2 < ·.sequence)).filter (·.sessionId = sessionId) = [] := by
    intro cursor hne
    refine filter_eq_nil_iff.mpr fun stored hstored hsame => hne ?_
    rw [← hlogs.own cursor.1 stored (mem_of_mem_filter hstored), of_decide_eq_true hsame]
  induction cursors with
  | nil => exact .inl rfl
  | cons cursor cursors ih =>
    rw [map_cons, nodup_cons] at hkeys
    rw [flatMap_cons, filter_append]
    by_cases hsession : cursor.1 = sessionId
    · subst hsession
      refine .inr ⟨cursor, mem_cons_self, rfl, ?_⟩
      have hrest : (cursors.flatMap fun cursor =>
          (logs cursor.1).filter (cursor.2 < ·.sequence)).filter
            (·.sessionId = cursor.1) = [] := by
        rcases ih hkeys.2 with hnil | ⟨other, hmem, hsame, _⟩
        · exact hnil
        · exact absurd (mem_map.mpr ⟨other, hmem, hsame⟩) hkeys.1
      rw [hrest, append_nil, filter_eq_self]
      intro stored hstored
      exact decide_eq_true (hlogs.own _ _ (mem_of_mem_filter hstored))
    · rw [hother cursor hsession, nil_append]
      rcases ih hkeys.2 with hnil | ⟨other, hmem, hsame, heq⟩
      · exact .inl hnil
      · exact .inr ⟨other, mem_cons_of_mem _ hmem, hsame, heq⟩

/-- **A tick's answer has, of each session, events one after another from its cursor.** -/
theorem eventsAfterMany_run (hlogs : Logged logs) (hkeys : (cursors.map Prod.fst).Nodup)
    (limit : Nat)
    (hsome : ∃ stored ∈ eventsAfterMany logs cursors limit, stored.sessionId = sessionId) :
    ∃ cursor ∈ cursors, cursor.1 = sessionId ∧
      Run cursor.2 ((eventsAfterMany logs cursors limit).filter (·.sessionId = sessionId)) ∧
      (eventsAfterMany logs cursors limit).filter (·.sessionId = sessionId) ⊆ logs sessionId := by
  have hperm := mergeSort_perm cursors fun cursor other => cursor.1 ≤ other.1
  have hinitial : (eventsAfterMany logs cursors limit).filter (·.sessionId = sessionId) <+:
      ((cursors.mergeSort fun cursor other => cursor.1 ≤ other.1).flatMap fun cursor =>
        (logs cursor.1).filter (cursor.2 < ·.sequence)).filter (·.sessionId = sessionId) :=
    (List.take_prefix _ _).filter _
  rcases filter_flatMap_cursors hlogs ((hperm.map Prod.fst).nodup_iff.mpr hkeys) sessionId with
    hnil | ⟨cursor, hcursor, hsession, heq⟩
  · obtain ⟨stored, hstored, hsame⟩ := hsome
    rw [hnil, prefix_nil, filter_eq_nil_iff] at hinitial
    exact absurd (decide_eq_true hsame) (hinitial stored hstored)
  · rw [heq] at hinitial
    exact ⟨cursor, hperm.mem_iff.mp hcursor, hsession,
      ((hlogs.numbered sessionId).past (Nat.zero_le _)).of_initial hinitial,
      List.Subset.trans hinitial.subset (filter_subset_self _)⟩

/-! ## The invariant -/

/-- Where a subscriber stands: what it was sent ends at its cursor. -/
structure Served (logs : Id → List StoredSessionEvent) (subscriber : Subscriber) : Prop where
  fresh : subscriber.client.stale = false
  sent : subscriber.delivered.foldlM advance subscriber.client.sequence = some subscriber.after
  drawn : ∀ message ∈ subscriber.delivered, message.stored ⊆ logs subscriber.sessionId
  /-- The gap it was answered with begins at the client's cursor. -/
  gap : ∀ events, subscriber.phase = .answered (some events) →
    Run subscriber.client.sequence events ∧ events ⊆ logs subscriber.sessionId

/-- A tick asks for each session once; its answer is a run of each. -/
structure Ticked (logs : Id → List StoredSessionEvent) (tick : Tick) : Prop where
  keys : (tick.cursors.map Prod.fst).Nodup
  answer : ∀ events ∈ tick.answer, ∀ sessionId,
    (∃ stored ∈ events, stored.sessionId = sessionId) →
      ∃ cursor ∈ tick.cursors, cursor.1 = sessionId ∧
        Run cursor.2 (events.filter (·.sessionId = sessionId)) ∧
        events.filter (·.sessionId = sessionId) ⊆ logs sessionId

structure Inv (feed : Feed) : Prop where
  logged : Logged feed.logs
  served : ∀ subscriber ∈ feed.subscribers, Served feed.logs subscriber
  ticked : ∀ tick ∈ feed.ticks, Ticked feed.logs tick

variable {transport : Transport} {subscriber : Subscriber} {feed feed' : Feed} {tick : Tick}

section

variable (h : Served logs subscriber) {phase : Phase}
include h

theorem Served.mono (hlogs : ∀ sessionId, logs sessionId ⊆ logs' sessionId) :
    Served logs' subscriber where
  fresh := h.fresh
  sent := h.sent
  drawn := fun message hmessage => List.Subset.trans (h.drawn message hmessage) (hlogs _)
  gap := fun events hphase => (h.gap events hphase).imp_right fun hsub => List.Subset.trans hsub
    (hlogs _)

omit h in
theorem Ticked.mono (h : Ticked logs tick)
    (hlogs : ∀ sessionId, logs sessionId ⊆ logs' sessionId) : Ticked logs' tick where
  keys := h.keys
  answer := fun events hanswer sessionId hsome => by
    obtain ⟨cursor, hcursor, hsession, hrun, hsub⟩ := h.answer events hanswer sessionId hsome
    exact ⟨cursor, hcursor, hsession, hrun, List.Subset.trans hsub (hlogs _)⟩

theorem Served.client_le : subscriber.client.sequence ≤ subscriber.after :=
  (foldl_applyStreamMessage h.fresh h.sent).2.2

omit h in
/-- What `deliver` changes: a message more, and whether the subscriber is kept. -/
theorem deliver_eq (transport : Transport) (subscriber : Subscriber) (message : Message) :
    ∃ pendingBytes pendingEvents live, deliver transport subscriber message = { subscriber with
        delivered := subscriber.delivered ++ [message], pendingBytes, pendingEvents, live } := by
  unfold deliver
  split <;> exact ⟨_, _, _, rfl⟩

/-- A message that takes a subscriber on to its new cursor. -/
theorem Served.deliver (hadvance : advance subscriber.after message = some n)
    (hdrawn : message.stored ⊆ logs subscriber.sessionId)
    (hgap : ∀ events, phase = .answered (some events) → subscriber.phase = phase) :
    Served logs (deliver transport { subscriber with after := n, phase } message) := by
  obtain ⟨_, _, _, heq⟩ := deliver_eq transport { subscriber with after := n, phase } message
  rw [heq]
  refine ⟨h.fresh, ?_, ?_, fun events hphase => h.gap events ((hgap events hphase).trans hphase)⟩
  · dsimp only
    rw [foldlM_append, h.sent]
    exact congrArg (· >>= pure) hadvance
  · intro other hother
    rcases mem_append.mp hother with hother | hother
    · exact h.drawn other hother
    · obtain rfl := mem_singleton.mp hother
      exact hdrawn

/-- **Events that begin no later than a subscriber's cursor continue its stream.** -/
theorem Served.deliverEvents (hrun : Run n events)
    (hle : n ≤ subscriber.after) (hdrawn : events ⊆ logs subscriber.sessionId)
    (hgap : ∀ events, phase = .answered (some events) → subscriber.phase = phase) :
    Served logs (deliverEvents transport { subscriber with phase } events) := by
  unfold SessionFeed.deliverEvents
  split
  · exact ⟨h.fresh, h.sent, h.drawn, fun events hphase =>
      h.gap events ((hgap events hphase).trans hphase)⟩
  · rename_i last hlast
    have hpast := hrun.past hle
    refine h.deliver ?_ (List.Subset.trans (filter_subset_self _) hdrawn) hgap
    rw [advance, if_pos hpast, hpast.last hlast]

theorem Served.setLive (live : Bool) : Served logs { subscriber with live } :=
  { h with }

end

/-! ## Steps -/

/-- The other subscribers stand where they stood. -/
theorem Inv.setSubscriber (h : Inv feed) (index : Nat) (hserved : Served feed.logs subscriber) :
    Inv { feed with subscribers := feed.subscribers.set index subscriber } where
  logged := h.logged
  served := fun other hother =>
    (mem_or_eq_of_mem_set hother).elim (h.served other) fun heq => heq ▸ hserved
  ticked := h.ticked

theorem Inv.commit (h : Inv feed) (hrun : Run (feed.logs sessionId).length events)
    (hown : ∀ stored ∈ events, stored.sessionId = sessionId) : Inv { feed with
      logs := update feed.logs sessionId (feed.logs sessionId ++ events) } := by
  have hmono : ∀ other, feed.logs other ⊆
      update feed.logs sessionId (feed.logs sessionId ++ events) other := by
    intro other
    by_cases hother : other = sessionId
    · subst hother
      rw [update_self]
      exact subset_append_left _ _
    · rw [update_of_ne hother]
      exact List.Subset.refl _
  refine ⟨⟨fun other => ?_, fun other => ?_⟩, fun subscriber hsubscriber =>
    (h.served subscriber hsubscriber).mono hmono, fun tick htick => (h.ticked tick htick).mono
      hmono⟩
  · by_cases hother : other = sessionId
    · subst hother
      dsimp only
      rw [update_self]
      exact (h.logged.numbered other).append (by rwa [Nat.zero_add])
    · dsimp only
      rw [update_of_ne hother]
      exact h.logged.numbered other
  · by_cases hother : other = sessionId
    · subst hother
      dsimp only
      rw [update_self]
      intro stored hstored
      exact (mem_append.mp hstored).elim (h.logged.own other stored) (hown stored)
    · dsimp only
      rw [update_of_ne hother]
      exact h.logged.own other

/-- A `subscribe` that goes on sends what continues the stream. -/
theorem Served.resume (h : Served logs subscriber) {resumed : Subscriber}
    (hresume : resume transport subscriber = some resumed)
    (hinOrder : ∀ snapshot ∈ subscriber.phase.snapshot?,
      subscriber.after ≤ snapshot.sequence) : Served logs resumed := by
  unfold SessionFeed.resume at hresume
  split at hresume
  · cases hresume
    exact ⟨h.fresh, h.sent, h.drawn, nofun⟩
  · rename_i events hphase
    cases hresume
    obtain ⟨hrun, hdrawn⟩ := h.gap events hphase
    exact h.deliverEvents hrun h.client_le hdrawn nofun
  · rename_i snapshot hphase
    cases hresume
    have hle := hinOrder snapshot (by rw [hphase]; rfl)
    refine h.deliver ?_ (nil_subset _) nofun
    rw [advance, if_pos hle, max_eq_right hle]
  · cases hresume

/-- A tick that goes on sends what continues each stream. -/
theorem Served.deliverTick (h : Served logs subscriber) (htick : Ticked logs tick)
    (hanswer : events ∈ tick.answer)
    (hinOrder : subscriber.live → (∃ stored ∈ events, stored.sessionId = subscriber.sessionId) →
      ∀ cursor ∈ tick.cursors, cursor.1 = subscriber.sessionId → cursor.2 ≤ subscriber.after) :
    Served logs (deliverTick transport events subscriber) := by
  unfold SessionFeed.deliverTick
  dsimp only
  split
  · rename_i hsend
    rw [Bool.and_eq_true, Bool.not_eq_true', isEmpty_eq_false_iff] at hsend
    obtain ⟨hlive, hsome⟩ := hsend
    have hsome' : ∃ stored ∈ events, stored.sessionId = subscriber.sessionId := by
      obtain ⟨stored, hstored⟩ := exists_mem_of_ne_nil _ hsome
      exact ⟨stored, mem_of_mem_filter hstored, of_decide_eq_true (mem_filter.mp hstored).2⟩
    obtain ⟨cursor, hcursor, hsession, hrun, hdrawn⟩ := htick.answer events hanswer _ hsome'
    exact h.deliverEvents hrun (hinOrder hlive hsome' cursor hcursor hsession) hdrawn
      fun _ _ => rfl
  · exact h

/-- **Every step that keeps the messages in order keeps the streams without a gap.** -/
theorem inv_step {action : Action} (h : Inv feed) (hinOrder : InOrder feed action)
    (hstep : step transport feed action = some feed') : Inv feed' := by
  cases action with
  | commit sessionId events =>
    rw [step, ite_none_right_eq_some, some.injEq] at hstep
    obtain ⟨⟨hrun, hown⟩, rfl⟩ := hstep
    exact h.commit hrun hown
  | subscribe key sessionId client =>
    rw [step, ite_none_left_eq_some, some.injEq] at hstep
    obtain ⟨hfresh, rfl⟩ := hstep
    refine ⟨h.logged, fun subscriber hsubscriber => ?_, h.ticked⟩
    rcases mem_append.mp hsubscriber with hsubscriber | hsubscriber
    · exact h.served subscriber hsubscriber
    · obtain rfl := mem_singleton.mp hsubscriber
      refine ⟨Bool.eq_false_iff.mpr hfresh, rfl, forall_mem_nil _, fun events hphase => ?_⟩
      cases hphase
  | answerGap index =>
    simp only [step, bind_eq_bind, bind_eq_some_iff] at hstep
    obtain ⟨subscriber, hsubscriber, hstep⟩ := hstep
    have hserved := h.served subscriber (mem_of_getElem? hsubscriber)
    split at hstep
    · cases hstep
      refine h.setSubscriber index ⟨hserved.fresh, hserved.sent, hserved.drawn, fun events
        hphase => ?_⟩
      exact eventsAfter_run (h.logged.numbered _) (Phase.answered.inj hphase)
    · cases hstep
  | answerSnapshot index snapshot =>
    simp only [step, bind_eq_bind, bind_eq_some_iff] at hstep
    obtain ⟨subscriber, hsubscriber, hstep⟩ := hstep
    have hserved := h.served subscriber (mem_of_getElem? hsubscriber)
    split at hstep
    · rw [ite_none_right_eq_some, some.injEq] at hstep
      obtain ⟨_, rfl⟩ := hstep
      exact h.setSubscriber index ⟨hserved.fresh, hserved.sent, hserved.drawn, nofun⟩
    · cases hstep
  | resume index =>
    simp only [step, bind_eq_bind, bind_eq_some_iff] at hstep
    obtain ⟨subscriber, hsubscriber, resumed, hresume, hstep⟩ := hstep
    cases hstep
    have hserved := h.served subscriber (mem_of_getElem? hsubscriber)
    exact h.setSubscriber index (hserved.resume hresume (hinOrder subscriber hsubscriber))
  | unsubscribe index =>
    simp only [step, bind_eq_bind, bind_eq_some_iff] at hstep
    obtain ⟨subscriber, hsubscriber, hstep⟩ := hstep
    cases hstep
    exact h.setSubscriber index
      ((h.served subscriber (mem_of_getElem? hsubscriber)).setLive false)
  | beginTick =>
    rw [step, ite_none_left_eq_some, some.injEq] at hstep
    obtain ⟨_, rfl⟩ := hstep
    refine ⟨h.logged, h.served, fun tick htick => ?_⟩
    rcases mem_append.mp htick with htick | htick
    · exact h.ticked tick htick
    · obtain rfl := mem_singleton.mp htick
      exact ⟨cursorsOf_keys _, nofun⟩
  | answerTick index =>
    simp only [step, bind_eq_bind, bind_eq_some_iff] at hstep
    obtain ⟨tick, htick, hstep⟩ := hstep
    have hticked := h.ticked tick (mem_of_getElem? htick)
    split at hstep
    · cases hstep
      refine ⟨h.logged, h.served, fun other hother => ?_⟩
      rcases mem_or_eq_of_mem_set hother with hother | rfl
      · exact h.ticked other hother
      · refine ⟨hticked.keys, fun events hanswer sessionId hsome => ?_⟩
        cases hanswer
        exact eventsAfterMany_run h.logged hticked.keys 2000 hsome
    · cases hstep
  | endTick index =>
    simp only [step, bind_eq_bind, bind_eq_some_iff] at hstep
    obtain ⟨tick, htick, events, hanswer, hstep⟩ := hstep
    cases hstep
    refine ⟨h.logged, fun subscriber hsubscriber => ?_, fun other hother =>
      h.ticked other (mem_of_mem_eraseIdx hother)⟩
    obtain ⟨before, hbefore, rfl⟩ := mem_map.mp hsubscriber
    exact (h.served before hbefore).deliverTick (h.ticked tick (mem_of_getElem? htick))
      hanswer (hinOrder tick htick events hanswer before hbefore)
  | close =>
    rw [step, some.injEq] at hstep
    subst hstep
    refine ⟨h.logged, fun subscriber hsubscriber => ?_, h.ticked⟩
    obtain ⟨before, hbefore, rfl⟩ := mem_map.mp hsubscriber
    exact (h.served before hbefore).setLive false

theorem inv_initial : Inv Feed.initial where
  logged := ⟨fun _ => rfl, fun _ => forall_mem_nil _⟩
  served := forall_mem_nil _
  ticked := forall_mem_nil _

/-- What a subscriber was sent has no gap, no event twice and no step back. -/
def Ungapped (logs : Id → List StoredSessionEvent) (subscriber : Subscriber) : Prop :=
  (∃ n, subscriber.delivered.foldlM advance subscriber.client.sequence = some n) ∧
    (∀ message ∈ subscriber.delivered, message.stored ⊆ logs subscriber.sessionId) ∧
    ∀ sent later, subscriber.delivered = sent ++ later →
      (sent.foldl applyStreamMessage subscriber.client).stale = false ∧
        (sent.foldl applyStreamMessage subscriber.client).sequence ≤
          (subscriber.delivered.foldl applyStreamMessage subscriber.client).sequence

/--
**A live subscriber is never served a gap**, where no message overtakes another. Each list of
events it is sent continues at the next event of the log, no snapshot is behind the events
before it, and its client is never stale and never moves back.
-/
theorem stream_without_gap (transport : Transport)
    (h : Reach (step transport) InOrder Feed.initial feed) :
    ∀ subscriber ∈ feed.subscribers, Ungapped feed.logs subscriber := by
  intro subscriber hsubscriber
  have hinv : Inv feed := h.invariant inv_initial fun _ _ _ => inv_step
  have hserved := hinv.served subscriber hsubscriber
  refine ⟨⟨_, hserved.sent⟩, hserved.drawn, fun sent later hsplit => ?_⟩
  have hall := hserved.sent
  rw [hsplit, foldlM_append, bind_eq_bind, bind_eq_some_iff] at hall
  obtain ⟨n, hsent, hlater⟩ := hall
  obtain ⟨hfresh, hsequence, _⟩ := foldl_applyStreamMessage hserved.fresh hsent
  refine ⟨hfresh, ?_⟩
  rw [hsplit, foldl_append]
  obtain ⟨_, hfinal, hle⟩ := foldl_applyStreamMessage hfresh (hsequence.symm ▸ hlater)
  exact hfinal ▸ hle

/-- A transport that takes every message at once. -/
def prompt : Transport where
  send := fun _ _ => true
  length := fun _ => 100
  bytes := fun _ => 100

/-- A stored event of session 1. -/
def streamed (sequence : Nat) : StoredSessionEvent :=
  ⟨1, sequence, toISOString 0, none, .itemTextAppended 2 .text "Hi" (toISOString 0)⟩

/-- A client's view of session 1 before its first event. -/
def unread : SessionState := .empty (.created 1 1 (toISOString 0))

/-- A tick brings both events before the catch-up, with the first of them, is taken up. -/
theorem stream_without_gap_overlap : ∃ feed, Reach (step prompt) InOrder Feed.initial feed ∧
      feed.subscribers.map Subscriber.after = [2] ∧
      ∀ subscriber ∈ feed.subscribers, Ungapped feed.logs subscriber := by
  have hrun : (execOk (step prompt) InOrder Feed.initial
      [.commit 1 [streamed 1], .subscribe 0 1 unread, .answerGap 0, .beginTick,
        .commit 1 [streamed 2], .answerTick 0, .endTick 0, .resume 0]).map
      (fun feed => feed.subscribers.map Subscriber.after) = some [2] := by
    decide +kernel
  obtain ⟨feed, hfeed, hafter⟩ := map_eq_some_iff.mp hrun
  have hreach := reach_of_execOk hfeed
  exact ⟨feed, hreach, hafter, stream_without_gap prompt hreach⟩

/--
A tick asks for session 1 after event 1, for the stream there is; before it goes on, event 2
is committed and a client without event 1 subscribes. The tick sends it event 2.
-/
theorem tick_overtakes_catch_up : ¬ ∀ feed, Reach (step prompt) anyEvent Feed.initial feed →
      ∀ subscriber ∈ feed.subscribers, Ungapped feed.logs subscriber := by
  intro hclaim
  have hrun : (exec (step prompt) Feed.initial
      [.commit 1 [streamed 1], .subscribe 0 1 (applyOne unread (streamed 1)), .answerGap 0,
        .resume 0, .beginTick, .commit 1 [streamed 2], .subscribe 1 1 unread, .answerTick 0,
        .endTick 0]).map
      (fun feed => feed.subscribers.map fun subscriber =>
        subscriber.delivered.foldlM advance subscriber.client.sequence) =
      some [some 2, none] := by
    decide +kernel
  obtain ⟨feed, hfeed, hsent⟩ := map_eq_some_iff.mp hrun
  have hlate : none ∈ feed.subscribers.map fun subscriber =>
      subscriber.delivered.foldlM advance subscriber.client.sequence := by
    rw [hsent]
    exact mem_cons_of_mem _ mem_cons_self
  obtain ⟨subscriber, hsubscriber, hnone⟩ := mem_map.mp hlate
  obtain ⟨n, hn⟩ := (hclaim feed (reach_of_exec hfeed) subscriber hsubscriber).1
  rw [hnone] at hn
  cases hn

end Catamorphic.Sessions.SessionFeed
