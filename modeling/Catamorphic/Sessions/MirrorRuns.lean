import Catamorphic.Sessions.MirrorPush

/-!
# A copy never mixes two histories

Pushes of a source's log reach a copy in any order, twice, retried and overlapping, while the
copy is created here, appends events of its own and changes hands. The invariant is in
numbers: a copy's log is the stretch of the source's log from the base it started at up to its
`mirror_sequence`, then the events of its own, and its sequence counts both. A push that is
accepted finds no event of its own, because one past `mirror_sequence` is a divergence.
-/

namespace Catamorphic.Sessions.Mirror

open Protocol Rows Log Runs Function List

/-- The server with the copies. -/
structure World where
  store : Store
  /-- The copies' `agent_sessions` rows. -/
  rows : Id → Option CopyRow
  /-- The events each copy appended itself, in order. -/
  own : Id → List StoredSessionEvent

def World.initial : World := ⟨⟨Db.empty, []⟩, fun _ => none, fun _ => []⟩

/-- `projectSession`, of the row's own columns. -/
def projectSession (row : CopyRow) : SessionEvent → CopyRow
  | .sessionChanged fields =>
    { row with
      authorityHostId := fields.authorityHostId.getD row.authorityHostId
      authorityRevision := fields.authorityRevision.getD row.authorityRevision }
  | _ => row

/-- The events a batch is stored as. -/
def appended (db : Db) (input : Append) : List StoredSessionEvent :=
  match db.eventSequence input.sessionId with
  | none => []
  | some sequence =>
    placeAll input.sessionId (toISOString input.clock) input.commandId (fun _ => none)
      (sequence + 1) (currentTurns db input.sessionId input.events)

open Option

inductive Action
  /-- A session is created on this server, whose host holds it. -/
  | create (sessionId : Id) (identity : Identity) (hostId : String)
  /-- The copy appends a batch of its own. -/
  | append (input : Append)
  /-- `claimLocalAuthority`, `completeHandoff`: a host takes the session. -/
  | hold (sessionId : Id) (authority : Authority)
  | push (sessionId : Id) (now clock : Date) (identity : Identity) (admitted : Bool)
      (input : MirrorInput)

/-- An action in a transaction of its own; a push that is refused changes nothing. -/
def step (metadataOk : Json → Bool) (w : World) : Action → Option World
  | .create sessionId identity hostId =>
    if w.rows sessionId = none then
      some { w with
        store := insertSession w.store sessionId
        rows := update w.rows sessionId
          (some ⟨identity.projectId, identity.externalUserId, hostId, 1, 0⟩) }
    else none
  | .append input =>
    (append w.store.db input).map fun db =>
      { store := { w.store with db }
        rows := update w.rows input.sessionId
          ((w.rows input.sessionId).map fun row => input.events.foldl projectSession row)
        own := update w.own input.sessionId
          (w.own input.sessionId ++ appended w.store.db input) }
  | .hold sessionId authority =>
    some { w with
      rows := update w.rows sessionId
        ((w.rows sessionId).map fun row =>
          { row with
            authorityHostId := authority.hostId
            authorityRevision := authority.revision }) }
  | .push sessionId now clock identity admitted input =>
    match writeSessionMirror metadataOk now clock identity admitted sessionId input w.store
        (w.rows sessionId) with
    | .error _ => some w
    | .ok (store, row) =>
      some { w with store, rows := update w.rows sessionId (some row) }

/-- A push sends events of the source's log, and a base taken of it. -/
def FromSource (source : Id → List StoredSessionEvent) : Action → Prop
  | .push sessionId _ _ _ _ input =>
    (∀ stored ∈ input.events,
      0 < stored.sequence ∧ (source sessionId)[stored.sequence - 1]? = some stored) ∧
    ∀ base ∈ input.base, base.sequence ≤ (source sessionId).length
  | _ => True

/--
No push of the host that holds a copy finds it with a log and with nothing mirrored: the
check of diverging copies is made only where `mirror_sequence` is past 0.
-/
def Marked (w : World) : Action → Prop
  | .push sessionId _ _ identity _ input => ∀ row ∈ w.rows sessionId,
      row.mirrorSequence = 0 → hasLogged w.store.db sessionId = true →
        ¬(row.isOf identity ∧ row.heldBy input.authority)
  | _ => True

/-- An event of the source as a copy stores it. -/
def mirrored (sessionId : Id) (stored : StoredSessionEvent) : StoredSessionEvent :=
  copiedStored sessionId (awayEvent stored)

/-- The source's events from `b` to `k`, as the copy stores them. -/
def stretch (log : List StoredSessionEvent) (sessionId : Id) (b k : Nat) :
    List StoredSessionEvent :=
  ((log.take k).drop b).map (mirrored sessionId)

variable {metadataOk : Json → Bool} {sessionId : Id} {log : List StoredSessionEvent}

/-! ## Stretches of the source's log -/

theorem awayEvent_sequence (stored : StoredSessionEvent) :
    (awayEvent stored).sequence = stored.sequence := by
  unfold awayEvent
  split <;> rfl

theorem stretch_nil (sessionId : Id) (k : Nat) : stretch log sessionId k k = [] := by
  rw [stretch, drop_eq_nil_of_le (length_take_le k log), map_nil]

theorem stretch_append {b k : Nat} (hb : b ≤ k) (hk : k ≤ log.length) (m : Nat) :
    stretch log sessionId b (k + m) =
      stretch log sessionId b k ++ ((log.drop k).take m).map (mirrored sessionId) := by
  have hlength : (log.take k).length = k := length_take_of_le hk
  rw [stretch, stretch, take_add, drop_append_of_le_length (hlength.symm ▸ hb), map_append]

variable {events : List StoredSessionEvent} {n : Nat}

/-- Numbered events of the log are a stretch of it. -/
theorem drawn_eq (hn : n ≤ log.length)
    (hdrawn : ∀ stored ∈ events, log[stored.sequence - 1]? = some stored)
    (hnumbered : events.map StoredSessionEvent.sequence = List.range' (n + 1) events.length) :
    events = (log.drop n).take events.length ∧ n + events.length ≤ log.length := by
  induction events generalizing n with
  | nil => exact ⟨by simp, hn⟩
  | cons stored events ih =>
    rw [map_cons, length_cons, range'_succ, List.cons.injEq] at hnumbered
    obtain ⟨hnext, hrest⟩ := hnumbered
    have hstored := hdrawn stored mem_cons_self
    rw [hnext, Nat.add_sub_cancel, List.getElem?_eq_some_iff] at hstored
    obtain ⟨hlt, hget⟩ := hstored
    obtain ⟨htake, hle⟩ :=
      ih hlt (List.forall_mem_cons.mp hdrawn).2 hrest
    refine ⟨?_, by rw [length_cons]; omega⟩
    rw [drop_eq_getElem_cons hlt, hget, length_cons, take_succ_cons, ← htake]

/-! ## What a push writes -/

theorem hasLogged_eq_false {db : Db} : hasLogged db sessionId = false ↔ eventsOf db sessionId =
    [] := by
  rw [hasLogged, Bool.not_eq_false', List.isEmpty_iff]

variable {store' : Store} {store : Store}

theorem clearUnlogged_log (h : clearUnlogged store sessionId = some store') :
    hasLogged store.db sessionId = false ∧ store'.db.events = store.db.events ∧
      store'.db.eventSequence = update store.db.eventSequence sessionId
        ((store.db.eventSequence sessionId).map fun _ => 0) := by
  unfold clearUnlogged at h
  split at h
  · cases h
  · rename_i hlogged
    cases h
    exact ⟨Bool.eq_false_iff.mpr hlogged, rfl, rfl⟩

variable {now clock : Date} {current : Option CopyRow}

/-- A base logs nothing; where it is imported the copy had no log, and moves to its sequence. -/
theorem importBase_log {base : SessionSnapshot}
    (h : importBase metadataOk now clock store sessionId current base = .ok store')
    (hsequence : store.db.eventSequence sessionId = some n) (hnew : current = none → n = 0) :
    store'.db.events = store.db.events ∧ (store'.db.eventSequence = store.db.eventSequence ∨
        ((n = 0 ∨ hasLogged store.db sessionId = false) ∧ store'.db.eventSequence =
            update store.db.eventSequence sessionId (some base.sequence))) := by
  unfold importBase at h
  dsimp only at h
  split at h
  · rename_i himports
    split at h
    · cases h
    · rename_i cleared hcleared
      split at h
      · cases h
      · rename_i imported himport
        split at h
        · cases h
          obtain ⟨m, hm, hsequence', hevents⟩ := importSnapshot_log himport
          split at hcleared
          · obtain ⟨hlogged, hevents', hcleared'⟩ := clearUnlogged_log hcleared
            rw [hcleared', update_self, hsequence, map_some, some.injEq] at hm
            subst hm
            exact ⟨hevents.trans hevents', .inr ⟨.inr hlogged, by
              rw [hsequence', hcleared', update_idem, Nat.zero_max]⟩⟩
          · rename_i hkept
            cases hcleared
            have hzero : n = 0 := by
              rw [hsequence] at himports
              simp only [hkept, Bool.or_false, Bool.or_eq_true, isNone_iff_eq_none,
                decide_eq_true_eq, some.injEq] at himports
              exact himports.elim hnew id
            rw [hsequence, some.injEq] at hm
            subst hm
            exact ⟨hevents, .inr ⟨.inl hzero, by rw [hsequence', hzero, Nat.zero_max]⟩⟩
        · cases h
  · cases h
    exact ⟨rfl, .inl rfl⟩

variable {row' : CopyRow} {input : MirrorInput}

/-- The events of a push continue the copy's log, and `mirror_sequence` is where it ends. -/
theorem writeEvents_log {row : CopyRow} (hn : n ≤ log.length)
    (h : writeEvents metadataOk now store sessionId row input = .ok (store', row'))
    (hsequence : store.db.eventSequence sessionId = some n)
    (hdrawn : ∀ stored ∈ input.events, log[stored.sequence - 1]? = some stored) :
    ∃ m, n + m ≤ log.length ∧ row'.mirrorSequence = n + m ∧ store'.db.eventSequence =
        update store.db.eventSequence sessionId (some (n + m)) ∧
      ∀ other, eventsOf store'.db other = eventsOf store.db other ++
        (if sessionId = other then ((log.drop n).take m).map (mirrored sessionId) else []) := by
  unfold writeEvents at h
  split at h
  · cases h
  · cases h
  · rename_i written sequence hreplicate
    split at h
    · cases h
    · cases h
      obtain ⟨n', hn', hnumbered, rfl, rfl⟩ := replicate_log hreplicate
      cases hsequence.symm.trans hn'
      have hkept : (input.events.map awayEvent).filter (n < ·.sequence) =
          (input.events.filter (n < ·.sequence)).map awayEvent := by
        rw [List.filter_map]
        congr 2
        funext stored
        rw [Function.comp, awayEvent_sequence]
      rw [hkept] at hnumbered ⊢
      rw [length_map, List.map_map] at hnumbered
      have hsequences : StoredSessionEvent.sequence ∘ awayEvent = StoredSessionEvent.sequence :=
        funext awayEvent_sequence
      have hcopied : ∀ stored ∈ ((input.events.filter (n < ·.sequence)).map awayEvent).map
          (copiedStored sessionId), stored.sessionId = sessionId := by
        intro stored hstored
        obtain ⟨_, _, rfl⟩ := mem_map.mp hstored
        rfl
      obtain ⟨hstretch, hle⟩ := drawn_eq hn
        (fun stored hstored => hdrawn stored (mem_of_mem_filter hstored))
        (hsequences ▸ hnumbered)
      refine ⟨_, hle, by rw [length_map], ?_, fun other => ?_⟩
      · rw [eventSequence_persistAll now hcopied hsequence, length_map, length_map]
        rw [List.map_map, List.map_map, length_map, length_map, ← hnumbered]
        rfl
      · rw [eventsOf_persistAll now hcopied, ← hstretch, List.map_map]
        rfl

variable {identity : Identity} {admitted : Bool}

theorem refusal_of_written
    (h : writeSessionMirror metadataOk now clock identity admitted sessionId input store current =
      .ok (store', row')) : refusal identity store.db sessionId input current = none := by
  unfold writeSessionMirror at h
  split at h
  · cases h
  · assumption

/-- **What an accepted push does**: the copy had no log of its own or keeps it, and source events follow. -/
theorem writeSessionMirror_log (hn : n ≤ log.length)
    (h : writeSessionMirror metadataOk now clock identity admitted sessionId input store current =
      .ok (store', row')) (hsequence : current ≠ none → store.db.eventSequence sessionId = some n)
    (hnew : current = none → n = 0)
    (hdrawn : ∀ stored ∈ input.events, log[stored.sequence - 1]? = some stored)
    (hbase : ∀ base ∈ input.base, base.sequence ≤ log.length) :
    ∃ k m, (k = n ∨ n = 0 ∨ hasLogged store.db sessionId = false) ∧ k ≤ log.length ∧
      k + m ≤ log.length ∧ row'.mirrorSequence = k + m ∧
      store'.db.eventSequence = update store.db.eventSequence sessionId (some (k + m)) ∧
      ∀ other, eventsOf store'.db other = eventsOf store.db other ++
        (if sessionId = other then ((log.drop k).take m).map (mirrored sessionId) else []) := by
  unfold writeSessionMirror at h
  split at h
  · cases h
  · split at h
    · cases h
    · dsimp only at h
      generalize hstart : (if current.isNone then insertSession store sessionId else store) = start
        at h
      have hevents : start.db.events = store.db.events := by
        rw [← hstart]
        split <;> rfl
      have hothers : ∀ v, update start.db.eventSequence sessionId v =
          update store.db.eventSequence sessionId v := by
        intro v
        rw [← hstart]
        split
        · exact update_idem _ _ _
        · rfl
      have hstarted : start.db.eventSequence sessionId = some n := by
        cases current with
        | none =>
          rw [← hstart, hnew rfl]
          exact update_self _ _ _
        | some row =>
          rw [← hstart]
          exact hsequence nofun
      have heventsOf : ∀ other, eventsOf start.db other = eventsOf store.db other :=
        fun other => by rw [eventsOf, eventsOf, hevents]
      split at h
      · obtain ⟨m, hle, hrow, hsequence', hevents'⟩ := writeEvents_log hn h hstarted hdrawn
        exact ⟨n, m, .inl rfl, hn, hle, hrow, by rw [hsequence', hothers],
          fun other => by rw [hevents', heventsOf]⟩
      · rename_i base hinput
        split at h
        · cases h
        · rename_i based himport
          obtain ⟨hevents', hkept | ⟨hnone, hmoved⟩⟩ := importBase_log himport hstarted hnew
          · obtain ⟨m, hle, hrow, hsequence', hwritten⟩ :=
              writeEvents_log hn h (hkept ▸ hstarted) hdrawn
            exact ⟨n, m, .inl rfl, hn, hle, hrow, by rw [hsequence', hkept, hothers],
              fun other => by rw [hwritten, ← heventsOf, eventsOf, hevents', eventsOf]⟩
          · obtain ⟨m, hle, hrow, hsequence', hwritten⟩ :=
              writeEvents_log (hbase base hinput) h (by rw [hmoved, update_self]) hdrawn
            refine ⟨base.sequence, m, .inr (hnone.imp id fun hlogged => ?_), hbase base hinput, hle,
              hrow,
              by rw [hsequence', hmoved, update_idem, hothers],
              fun other => by rw [hwritten, ← heventsOf, eventsOf, hevents', eventsOf]⟩
            rw [hasLogged_eq_false] at hlogged ⊢
            rwa [← heventsOf]

/-! ## The invariant -/

/-- A copy's log, its row and its sequence say the same of what was mirrored to it. -/
structure Copied (log : List StoredSessionEvent) (w : World) (sessionId : Id) : Prop where
  absent : w.rows sessionId = none → w.store.db.eventSequence sessionId = none ∧
    eventsOf w.store.db sessionId = [] ∧ w.own sessionId = []
  /-- The source's events from the base to `mirror_sequence`, then the copy's own. -/
  held : ∀ row ∈ w.rows sessionId, ∃ b, b ≤ row.mirrorSequence ∧ row.mirrorSequence ≤ log.length ∧
    eventsOf w.store.db sessionId =
      stretch log sessionId b row.mirrorSequence ++ w.own sessionId ∧
    w.store.db.eventSequence sessionId =
      some (row.mirrorSequence + (w.own sessionId).length)

variable {w w' : World}

/-- What is written of another session leaves a copy. -/
theorem Copied.congr (h : Copied log w sessionId) (hrow : w'.rows sessionId = w.rows sessionId)
    (hsequence : w'.store.db.eventSequence sessionId = w.store.db.eventSequence sessionId)
    (hevents : eventsOf w'.store.db sessionId = eventsOf w.store.db sessionId)
    (hown : w'.own sessionId = w.own sessionId) : Copied log w' sessionId := by
  refine ⟨fun hnone => ?_, fun row hheld => ?_⟩
  · rw [hsequence, hevents, hown]
    exact h.absent (hrow ▸ hnone)
  · rw [hsequence, hevents, hown]
    exact h.held row (hrow ▸ hheld)

/-- A row that only changes hands is at the same `mirror_sequence`. -/
theorem Copied.setRow (h : Copied log w sessionId) {f : CopyRow → CopyRow}
    (hf : ∀ row, (f row).mirrorSequence = row.mirrorSequence)
    (hrow : w'.rows sessionId = (w.rows sessionId).map f)
    (hsequence : w'.store.db.eventSequence sessionId = w.store.db.eventSequence sessionId)
    (hevents : eventsOf w'.store.db sessionId = eventsOf w.store.db sessionId)
    (hown : w'.own sessionId = w.own sessionId) : Copied log w' sessionId := by
  refine ⟨fun hnone => ?_, fun row' hheld => ?_⟩
  · rw [hsequence, hevents, hown]
    rw [hrow, map_eq_none_iff] at hnone
    exact h.absent hnone
  · rw [hsequence, hevents, hown]
    rw [hrow] at hheld
    obtain ⟨row, hrow', rfl⟩ := map_eq_some_iff.mp hheld
    rw [hf]
    exact h.held row hrow'

theorem foldl_projectSession (events : List SessionEvent) (row : CopyRow) :
    (events.foldl projectSession row).mirrorSequence = row.mirrorSequence := by
  induction events generalizing row with
  | nil => rfl
  | cons event events ih =>
    rw [foldl_cons, ih]
    unfold projectSession
    split <;> rfl

/-- A batch of the copy's own is stored after what it has. -/
theorem append_log {db db' : Db} {input : Append} (h : append db input = some db') :
    ∃ n, db.eventSequence input.sessionId = some n ∧
      db'.eventSequence = update db.eventSequence input.sessionId
        (some (n + (appended db input).length)) ∧
      ∀ other, eventsOf db' other = eventsOf db other ++
        (if input.sessionId = other then appended db input else []) := by
  rw [append, map_eq_some_iff] at h
  obtain ⟨n, hn, rfl⟩ := h
  have happended : appended db input = placeAll input.sessionId (toISOString input.clock)
      input.commandId (fun _ => none) (n + 1) (currentTurns db input.sessionId input.events) := by
    rw [appended, hn]
  have hwriter : ∀ stored ∈ appended db input, stored.sessionId = input.sessionId :=
    fun stored hstored => placeAll_sessionId (happended ▸ hstored)
  rw [← happended]
  refine ⟨n, hn, eventSequence_persistAll input.now hwriter hn ?_, eventsOf_persistAll input.now
    hwriter db⟩
  rw [happended, placeAll_sequence, placeAll_length]

/-- A push that passes its checks finds a stretch of the source's log, and no event of the copy's own. -/
theorem Copied.unshared (h : Copied log w sessionId)
    (hallowed : refusal identity w.store.db sessionId input (w.rows sessionId) = none)
    (hmarked : ∀ row ∈ w.rows sessionId, row.mirrorSequence = 0 →
      hasLogged w.store.db sessionId = true → ¬(row.isOf identity ∧ row.heldBy input.authority)) :
    w.own sessionId = [] ∧ ∃ b n, b ≤ n ∧ n ≤ log.length ∧
      eventsOf w.store.db sessionId = stretch log sessionId b n ∧
      (w.rows sessionId ≠ none → w.store.db.eventSequence sessionId = some n) ∧
      (w.rows sessionId = none → n = 0) := by
  cases hrow : w.rows sessionId with
  | none =>
    obtain ⟨_, hevents, hown⟩ := h.absent hrow
    exact ⟨hown, 0, 0, le_rfl, Nat.zero_le _, by rw [hevents, stretch_nil],
      absurd rfl, fun _ => rfl⟩
  | some row =>
    obtain ⟨b, hb, hn, hevents, hsequence⟩ := h.held row hrow
    have hnil : w.own sessionId = [] := by
      by_contra hown
      have hlogged : hasLogged w.store.db sessionId = true := by
        rw [← Bool.not_eq_false, hasLogged_eq_false, hevents, append_eq_nil_iff]
        exact fun hnil => hown hnil.2
      rw [hrow, refusal] at hallowed
      split at hallowed
      · cases hallowed
      · rename_i hisOf
        split at hallowed
        · cases hallowed
        · rename_i hheldBy
          split at hallowed
          · cases hallowed
          · rename_i hpast
            rcases Nat.eq_zero_or_pos row.mirrorSequence with hzero | hpos
            · exact hmarked row hrow hzero hlogged ⟨not_not.mp hisOf, not_not.mp hheldBy⟩
            · refine hpast ⟨?_, hpos, ?_⟩
              · rw [unlogged, hlogged, Bool.not_true, Bool.and_false, Bool.not_false]
              · have hlength := length_pos_iff.mpr hown
                rw [hsequence, any_some, decide_eq_true_eq]
                omega
    rw [hnil, append_nil] at hevents
    rw [hnil, length_nil, Nat.add_zero] at hsequence
    exact ⟨hnil, b, _, hb, hn, hevents, fun _ => hsequence, nofun⟩

/-- Source events after a stretch of the source's log are a longer stretch. -/
theorem Copied.push (h : Copied log w sessionId)
    (hwrite : writeSessionMirror metadataOk now clock identity admitted sessionId input w.store
      (w.rows sessionId) = .ok (store, row'))
    (hmarked : ∀ row ∈ w.rows sessionId, row.mirrorSequence = 0 →
      hasLogged w.store.db sessionId = true → ¬(row.isOf identity ∧ row.heldBy input.authority))
    (hdrawn : ∀ stored ∈ input.events, log[stored.sequence - 1]? = some stored)
    (hbase : ∀ base ∈ input.base, base.sequence ≤ log.length) : (∀ other, sessionId ≠ other →
      eventsOf store.db other = eventsOf w.store.db other ∧
        store.db.eventSequence other = w.store.db.eventSequence other) ∧
      Copied log { w with store, rows := update w.rows sessionId (some row') } sessionId := by
  obtain ⟨hown, b, n, hb, hn, hevents, hsequence, hnew⟩ :=
    h.unshared (refusal_of_written hwrite) hmarked
  obtain ⟨k, m, hstart, hk, hle, hrow, hsequence', hevents'⟩ :=
    writeSessionMirror_log hn hwrite hsequence hnew hdrawn hbase
  refine ⟨fun other hne => ⟨by rw [hevents', if_neg hne, append_nil],
    by rw [hsequence', update_of_ne hne.symm]⟩, fun hnone => ?_, fun row hheld => ?_⟩
  · dsimp only at hnone
    rw [update_self] at hnone
    cases hnone
  · dsimp only at hheld ⊢
    rw [update_self] at hheld
    cases hheld
    -- Where a base was imported, the copy's stretch before it was empty.
    obtain ⟨b', hb', hheld⟩ : ∃ b', b' ≤ k ∧
        eventsOf w.store.db sessionId = stretch log sessionId b' k := by
      rcases hstart with rfl | rfl | hlogged
      · exact ⟨b, hb, hevents⟩
      · obtain rfl := Nat.le_zero.mp hb
        exact ⟨k, le_rfl, by rw [hevents, stretch_nil, stretch_nil]⟩
      · exact ⟨k, le_rfl, by rw [hasLogged_eq_false.mp hlogged, stretch_nil]⟩
    rw [hrow, hown, hsequence', hevents', if_pos rfl, hheld, update_self]
    exact ⟨b', by omega, hle, by rw [stretch_append hb' hk, append_nil], rfl⟩

/-- **A push, a batch of the copy's own, and every other action keep the histories apart.** -/
theorem copied_step {source : Id → List StoredSessionEvent} {action : Action}
    (h : ∀ sessionId, Copied (source sessionId) w sessionId)
    (hok : FromSource source action ∧ Marked w action)
    (hstep : step metadataOk w action = some w') (sessionId : Id) :
    Copied (source sessionId) w' sessionId := by
  cases action with
  | create writer identity hostId =>
    rw [step, ite_none_right_eq_some, some.injEq] at hstep
    obtain ⟨hnone, rfl⟩ := hstep
    by_cases hwriter : sessionId = writer
    · subst hwriter
      obtain ⟨_, hevents, hown⟩ := (h sessionId).absent hnone
      refine ⟨fun hnone' => ?_, fun row hheld => ?_⟩
      · dsimp only at hnone'
        rw [update_self] at hnone'
        cases hnone'
      · dsimp only at hheld ⊢
        rw [update_self] at hheld
        cases hheld
        refine ⟨0, le_rfl, Nat.zero_le _, ?_, ?_⟩
        · rw [stretch_nil, hown]
          exact hevents
        · rw [hown]
          exact update_self _ _ _
    · exact (h sessionId).congr (update_of_ne hwriter _ _)
        (update_of_ne hwriter _ _) rfl rfl
  | append input =>
    rw [step, map_eq_some_iff] at hstep
    obtain ⟨db, happend, rfl⟩ := hstep
    obtain ⟨n, hn, hsequence, hevents⟩ := append_log happend
    by_cases hwriter : sessionId = input.sessionId
    · subst hwriter
      refine ⟨fun hnone => ?_, fun row' hheld => ?_⟩
      · dsimp only at hnone
        rw [update_self, map_eq_none_iff] at hnone
        rw [((h _).absent hnone).1] at hn
        cases hn
      · dsimp only at hheld ⊢
        rw [update_self] at hheld
        obtain ⟨row, hrow, rfl⟩ := map_eq_some_iff.mp hheld
        obtain ⟨b, hb, hle, hlog, hcount⟩ := (h _).held row hrow
        cases hn.symm.trans hcount
        rw [foldl_projectSession, update_self, hevents, if_pos rfl, hlog, hsequence,
          update_self, length_append]
        exact ⟨b, hb, hle, append_assoc _ _ _, by rw [Nat.add_assoc]⟩
    · refine (h sessionId).congr (update_of_ne hwriter _ _) ?_ ?_
        (update_of_ne hwriter _ _)
      · dsimp only
        rw [hsequence, update_of_ne hwriter]
      · dsimp only
        rw [hevents, if_neg (Ne.symm hwriter), append_nil]
  | hold writer authority =>
    rw [step, some.injEq] at hstep
    subst hstep
    by_cases hwriter : sessionId = writer
    · subst hwriter
      exact (h sessionId).setRow
        (f := fun row => { row with
          authorityHostId := authority.hostId
          authorityRevision := authority.revision })
        (fun _ => rfl) (update_self _ _ _) rfl rfl rfl
    · exact (h sessionId).congr (update_of_ne hwriter _ _) rfl rfl rfl
  | push writer now clock identity admitted input =>
    rw [step] at hstep
    split at hstep
    · cases hstep
      exact h sessionId
    · rename_i store row' hwrite
      cases hstep
      obtain ⟨hothers, hcopied⟩ := (h writer).push hwrite hok.2
        (fun stored hstored => (hok.1.1 stored hstored).2) hok.1.2
      by_cases hwriter : sessionId = writer
      · exact hwriter ▸ hcopied
      · obtain ⟨hevents, hsequence⟩ := hothers sessionId (Ne.symm hwriter)
        exact (h sessionId).congr (update_of_ne hwriter _ _) hsequence hevents rfl

theorem copied_initial (log : List StoredSessionEvent) (sessionId : Id) :
    Copied log .initial sessionId :=
  ⟨fun _ => ⟨rfl, rfl, rfl⟩, nofun⟩

/--
**A mirrored session never mixes histories**, where no push of its holder finds it with a log
and nothing mirrored: in every run the copy's log is a stretch of the source's log from the
copy's base, followed by the events of its own. Once it has one, every push of the session's
owner is refused as diverged and changes nothing.
-/
theorem histories_apart (metadataOk : Json → Bool) (source : Id → List StoredSessionEvent)
    {w : World}
    (h : Reach (step metadataOk) (fun w action => FromSource source action ∧ Marked w action)
      .initial w) (sessionId : Id) :
    (∃ b k, b ≤ k ∧ k ≤ (source sessionId).length ∧ eventsOf w.store.db sessionId =
        (((source sessionId).take k).drop b).map (mirrored sessionId) ++ w.own sessionId) ∧
      ∀ (row : CopyRow) (now clock : Date) (identity : Identity) (admitted : Bool)
        (input : MirrorInput), w.rows sessionId = some row → w.own sessionId ≠ [] →
        row.isOf identity → Marked w (.push sessionId now clock identity admitted input) →
          writeSessionMirror metadataOk now clock identity admitted sessionId input w.store
              (some row) = .error .diverged ∧
            step metadataOk w (.push sessionId now clock identity admitted input) = some w := by
  have hcopied : ∀ sessionId, Copied (source sessionId) w sessionId :=
    h.invariant (I := fun w => ∀ sessionId, Copied (source sessionId) w sessionId)
      (fun sessionId => copied_initial _ sessionId)
      fun _ _ _ => copied_step
  refine ⟨?_, fun row now clock identity admitted input hrow hown hisOf hmarked => ?_⟩
  · cases hrow : w.rows sessionId with
    | none =>
      obtain ⟨_, hevents, hown⟩ := (hcopied sessionId).absent hrow
      exact ⟨0, 0, le_rfl, Nat.zero_le _, by rw [hevents, hown]; rfl⟩
    | some row =>
      obtain ⟨b, hb, hle, hevents, _⟩ := (hcopied sessionId).held row hrow
      exact ⟨b, _, hb, hle, hevents⟩
  · have hrefused : refusal identity w.store.db sessionId input (some row) = some .diverged := by
      cases hrefusal : refusal identity w.store.db sessionId input (some row) with
      | none => exact absurd ((hcopied sessionId).unshared (hrow ▸ hrefusal) hmarked).1 hown
      | some error =>
        rw [refusal, if_neg (not_not.mpr hisOf)] at hrefusal
        split at hrefusal
        · exact hrefusal.symm
        · split at hrefusal
          · exact hrefusal.symm
          · cases hrefusal
    have hwrite : writeSessionMirror metadataOk now clock identity admitted sessionId input w.store
        (some row) = .error .diverged := by
      rw [writeSessionMirror, hrefused]
    exact ⟨hwrite, by rw [step, hrow, hwrite]⟩

/-- A change of a session's title or status. -/
def changed (title : Option String) (status : Option SessionStatus) : SessionEvent :=
  .sessionChanged {
    id := none, projectId := none, title := title.map some, icon := none, agentId := none
    harness := none, model := none, modelEffort := none, status, workStatus := none
    activity := none, todos := none, metadata := none, imported := none
    parentSessionId := none, forkedFromSessionId := none, attentionRevision := none
    environment := none, authorityHostId := none, authorityRevision := none
    handoffStatus := none, updatedAt := none }

/-- The source's log: its session is named twice. -/
def named : List StoredSessionEvent :=
  [⟨7, 1, toISOString 0, none, changed (some "Draft") none⟩,
    ⟨7, 2, toISOString 0, none, changed (some "Final") none⟩]

/-- The source's session before its first event. -/
def unstarted : SessionSnapshot where
  sequence := 0
  session := .created 7 1 (toISOString 0)
  turns := []
  attempts := []
  items := []
  requests := []
  providerThreads := []
  olderBefore := none

def pushNamed (base : Option SessionSnapshot) (events : List StoredSessionEvent) : Action :=
  .push 7 0 0 ⟨1, 1⟩ true ⟨⟨"laptop", 1⟩, base, events, []⟩

theorem fromSource_pushNamed {base : Option SessionSnapshot} (hevents : events ⊆ named)
    (hbase : base = none ∨ base = some unstarted) :
    FromSource (fun _ => named) (pushNamed base events) := by
  refine ⟨fun stored hstored => ?_, fun start hstart => ?_⟩
  · have hmem := hevents hstored
    rw [named, mem_cons, mem_singleton] at hmem
    rcases hmem with rfl | rfl
    · exact ⟨Nat.one_pos, rfl⟩
    · exact ⟨Nat.two_pos, rfl⟩
  · rcases hbase with rfl | rfl
    · cases hstart
    · cases hstart
      exact Nat.zero_le _

/-- The copy is closed where it stands, whoever holds it. -/
def closeCopy : Action :=
  .append ⟨7, [changed none (some .closed)], none, 0, 0⟩

/-- The first event is mirrored, the copy is closed, and the whole log is sent again. -/
theorem histories_apart_closed : ∃ w, Reach (step fun _ => true)
        (fun w action => FromSource (fun _ => named) action ∧ Marked w action) .initial w ∧
      (eventsOf w.store.db 7).map StoredSessionEvent.sequence = [1, 2] ∧
      step (fun _ => true) w (pushNamed none named) = some w := by
  obtain ⟨w₁, h₁⟩ : ∃ w₁, step (fun _ => true) World.initial
      (pushNamed (some unstarted) (named.take 1)) = some w₁ := ⟨_, rfl⟩
  obtain ⟨w, h⟩ : ∃ w, step (fun _ => true) w₁ closeCopy = some w := by
    cases h₁
    exact ⟨_, rfl⟩
  have hfirst : Reach (step fun _ => true)
      (fun w action => FromSource (fun _ => named) action ∧ Marked w action) .initial w₁ :=
    Reach.init.tail ⟨fromSource_pushNamed (take_subset _ _) (.inr rfl), nofun⟩ h₁
  have hreach := hfirst.tail (e := closeCopy) ⟨trivial, trivial⟩ h
  obtain ⟨row, hrow, hown, hisOf, hpast, hlog⟩ : ∃ row, w.rows 7 = some row ∧ w.own 7 ≠ [] ∧
      row.isOf ⟨1, 1⟩ ∧ row.mirrorSequence ≠ 0 ∧
      (eventsOf w.store.db 7).map StoredSessionEvent.sequence = [1, 2] := by
    cases h₁
    cases h
    exact ⟨_, rfl, nofun, ⟨rfl, rfl⟩, nofun, rfl⟩
  refine ⟨w, hreach, hlog, ?_⟩
  refine ((histories_apart (fun _ => true) _ hreach 7).2 row 0 0 ⟨1, 1⟩ true _ hrow hown hisOf ?_).2
  intro row' hrow' hzero
  cases hrow.symm.trans hrow'
  exact absurd hzero hpast

/-- A session mirrored before its first event, its copy closed, and its log sent. -/
def mixed : Option World :=
  exec (step fun _ => true) .initial [pushNamed (some unstarted) [], closeCopy, pushNamed none
    named]

/--
The push of the log skips its event 1, as the copy has one, and stores event 2 after the
copy's own.
-/
theorem source_event_after_own :
    ¬ ∀ w, Reach (step fun _ => true) (fun _ action => FromSource (fun _ => named) action)
        .initial w → ∃ b k, b ≤ k ∧ k ≤ named.length ∧
      eventsOf w.store.db 7 = ((named.take k).drop b).map (mirrored 7) ++ w.own 7 := by
  intro hclaim
  have hmixed : mixed.map (fun w => ((eventsOf w.store.db 7).map StoredSessionEvent.sequence,
      (w.own 7).map StoredSessionEvent.sequence)) = some ([1, 2], [1]) := by
    decide +kernel
  obtain ⟨w, hw, hlog⟩ := map_eq_some_iff.mp hmixed
  obtain ⟨hsequences, hown⟩ := Prod.mk.inj hlog
  have hsource : ∀ action ∈ [pushNamed (some unstarted) [], closeCopy, pushNamed none named],
      ∀ _ : World, FromSource (fun _ => named) action := by
    intro action haction _
    simp only [mem_cons, not_mem_nil, or_false] at haction
    rcases haction with rfl | rfl | rfl
    · exact fromSource_pushNamed (nil_subset _) (.inr rfl)
    · trivial
    · exact fromSource_pushNamed (List.Subset.refl _) (.inl rfl)
  obtain ⟨b, k, _, _, hevents⟩ := hclaim w (reach_of_execAll hsource hw)
  -- The last event of the log would be the copy's own, which is number 1.
  have hlast := congrArg List.getLast? hsequences
  rw [hevents, map_append, hown, List.getLast?_concat] at hlast
  cases hlast

end Catamorphic.Sessions.Mirror
