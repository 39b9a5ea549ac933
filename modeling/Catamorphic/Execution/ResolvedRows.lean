import Catamorphic.Execution.SignalDelivery

/-!
# Rows of requests that were answered

A pause that is not open is never changed again, and a signal keeps its key and its hash. So what
a request is compared with is the same whenever it is sent again.
-/

namespace Catamorphic.Execution.Coordinator

open Runs List

/-- What a request with a signal's key is compared with. -/
def Signal.identity (signal : Signal) : Nat × RunId × Text × Text × String :=
  (signal.sequence, signal.runId, signal.signalName, signal.idempotencyKey, signal.payloadHash)

/-- What transactions keep of pauses and signals. -/
structure RowsKept (w w' : World) : Prop where
  closed : ∀ pause ∈ w.pauses, pause.status ≠ .opened → pause ∈ w'.pauses
  /-- An open pause is an old one, or has no key yet. -/
  opened : ∀ pause ∈ w'.pauses, pause.status = .opened →
    pause ∈ w.pauses ∨ pause.resumeIdempotencyKey = none
  signals : w.signals.map Signal.identity ⊆ w'.signals.map Signal.identity

variable {w w' w'' : World} {pause : Pause} {values : Values} {resolution : Resolution}
  {set : Pause → Pause} {ownsJob : Bool}

theorem RowsKept.of_eq (hpauses : w'.pauses = w.pauses) (hsignals : w'.signals = w.signals) :
    RowsKept w w' where
  closed _ hpause _ := hpauses ▸ hpause
  opened _ hpause _ := .inl (hpauses ▸ hpause)
  signals := by rw [hsignals]; exact List.Subset.refl _

theorem RowsKept.refl (w : World) : RowsKept w w := .of_eq rfl rfl

theorem RowsKept.trans (h : RowsKept w w') (h' : RowsKept w' w'') : RowsKept w w'' where
  closed pause hpause hclosed := h'.closed pause (h.closed pause hpause hclosed) hclosed
  opened pause hpause hopen := by
    rcases h'.opened pause hpause hopen with hpause' | hnone
    · exact h.opened pause hpause' hopen
    · exact .inr hnone
  signals := List.Subset.trans h.signals h'.signals

/-- Open pauses may be closed. -/
theorem RowsKept.map_pauses {f : Pause → Pause} (hpauses : w'.pauses = w.pauses.map f)
    (hsignals : w'.signals = w.signals)
    (hclosed : ∀ pause ∈ w.pauses, pause.status ≠ .opened → f pause = pause)
    (hopened : ∀ pause ∈ w.pauses, (f pause).status = .opened → f pause = pause) :
    RowsKept w w' where
  closed pause hpause hstatus := by
    rw [hpauses, ← hclosed pause hpause hstatus]
    exact mem_map_of_mem hpause
  opened pause hpause hopen := by
    rw [hpauses] at hpause
    obtain ⟨old, hold, rfl⟩ := mem_map.mp hpause
    rw [hopened old hold hopen]
    exact .inl hold
  signals := by rw [hsignals]; exact List.Subset.refl _

/-- Signals may be consumed or discarded. -/
theorem RowsKept.map_signals {f : Signal → Signal} (hpauses : w'.pauses = w.pauses)
    (hsignals : w'.signals = w.signals.map f)
    (hidentity : ∀ signal, (f signal).identity = signal.identity) : RowsKept w w' where
  closed _ hpause _ := hpauses ▸ hpause
  opened _ hpause _ := .inl (hpauses ▸ hpause)
  signals := by
    have hsame : w.signals.map (Signal.identity ∘ f) = w.signals.map Signal.identity :=
      map_congr_left fun signal _ => hidentity signal
    rw [hsignals, map_map, hsame]
    exact List.Subset.refl _

theorem Quiet.rowsKept (h : Quiet w w') : RowsKept w w' := by
  induction h with
  | same hpauses hsignals => exact .of_eq hpauses hsignals
  | discard w runId =>
    refine .map_signals rfl rfl fun signal => ?_
    split
    · rfl
    · rfl
  | cancel w which =>
    refine .map_pauses rfl rfl (fun pause _ hclosed => ?_) fun pause _ hopen => ?_
    · exact if_neg fun h => hclosed h.2
    · split at hopen
      · cases hopen
      · rename_i h
        exact if_neg h
  | trans _ _ ih ih' => exact ih.trans ih'

section

variable (hopen : ∀ other ∈ w.pauses, other.id = pause.id → other.status = .opened)
include hopen

/-- An open pause is resolved. -/
theorem RowsKept.resolve (hset : ∀ pause, (set pause).status ≠ .opened) :
    RowsKept w (w.resolve pause.id resolution set) := by
  refine .map_pauses rfl rfl (fun other hother hclosed => ?_) fun other _ hstill => ?_
  · exact if_neg fun hsame => hclosed (hopen other hother hsame)
  · split at hstill
    · exact absurd hstill (hset other)
    · rename_i hsame
      exact if_neg hsame

theorem RowsKept.timeOut : RowsKept w (w.timeOut pause).1 := by
  refine .trans (.resolve hopen ?_) Moves.resolvePause.quiet.rowsKept
  exact fun _ hstatus => nomatch hstatus

theorem RowsKept.resolveNamedPause {result : World × Option Ended}
    (h : w.resolveNamedPause values pause = some result) : RowsKept w result.1 := by
  unfold World.resolveNamedPause at h
  split at h
  · cases h
    exact .timeOut hopen
  · split at h
    · cases h
    · split at h
      · cases h
      · rename_i signal _
        cases h
        have hconsume : RowsKept w (w.resumeSignal signal.sequence pause.id) := by
          refine .map_signals rfl rfl fun other => ?_
          split <;> rfl
        refine hconsume.trans (.trans (.resolve hopen ?_) Moves.resolvePause.quiet.rowsKept)
        exact fun _ hstatus => nomatch hstatus

end

theorem RowsKept.insertPause (hkey : pause.resumeIdempotencyKey = none)
    (h : w.insertPause pause = some w') : RowsKept w w' := by
  unfold World.insertPause at h
  split at h
  · cases h
  · cases h
    refine ⟨fun old hold _ => mem_append_left _ hold, fun other hother _ => ?_, List.Subset.refl _⟩
    rcases mem_append.mp hother with hold | hnew
    · exact .inl hold
    · rw [mem_singleton.mp hnew]
      exact .inr hkey

/-- An open pause is the only one of its number. -/
theorem Delivery.opened {E : PauseId → Prop} (h : Delivery E w) (hpause : pause ∈ w.pauses)
    (hopen : pause.status = .opened) :
    ∀ other ∈ w.pauses, other.id = pause.id → other.status = .opened := by
  intro other hother hsame
  rw [h.pause_eq hother hpause hsame, hopen]

/-! ## Every operation -/

theorem RowsKept.suspendForPause {attemptId : AttemptId}
    {transition : PauseTransition} (h : Delivery nothing w)
    (hs : w.suspendForPause values attemptId ownsJob transition = some w') : RowsKept w w' := by
  rcases suspendForPause_cases hs with rfl | ⟨run, attempt, pause, w₁, -, -, hinsert,
    ⟨hid, -, -, hopen, hkey⟩, w₂, hw₂, hrest⟩
  · exact .refl w'
  · obtain ⟨h₁, hpause⟩ := h.insertPause hid hopen hinsert
    have hsame : w₂.pauses = w₁.pauses := by
      rw [hw₂, (updateRun_rows ..).1]
      rfl
    have hquiet : Quiet w₁ w₂ := by
      rw [hw₂]
      exact Moves.setAttempt.quiet.trans (quiet_updateRun ..)
    have hwaits : RowsKept w w₂ := (RowsKept.insertPause hkey hinsert).trans hquiet.rowsKept
    rcases hrest with ⟨-, rfl⟩ | ⟨result, hresult, hfinish⟩
    · exact hwaits
    · have hnamed := RowsKept.resolveNamedPause
        ((h₁.quiet hquiet).opened (hsame ▸ hpause) hopen) hresult
      exact (hwaits.trans hnamed).trans (quiet_finish hfinish).rowsKept

theorem RowsKept.resolvePauseTimeout {runId : RunId} {pauseId : PauseId}
    (h : Delivery nothing w) (hs : w.resolvePauseTimeout runId pauseId ownsJob = some w') :
    RowsKept w w' := by
  rcases resolvePauseTimeout_cases hs with rfl | ⟨pause, hpause, -, hopen, hfinish⟩
  · exact .refl w'
  · exact (RowsKept.timeOut (h.opened hpause hopen)).trans (quiet_finish hfinish).rowsKept

/-- The key and the hash that a request is compared with are the pause's. -/
def Pause.Knows (pause : Pause) (idempotencyKey : Text) (payloadHash : String) : Prop :=
  pause.resumeIdempotencyKey = some idempotencyKey ∧ pause.resumePayloadHash = some payloadHash

/-- An open pause that a request finds has time left, and the request's key is stored as it is. -/
def World.Takes (w : World) (pauseId : PauseId) (idempotencyKey : Text) : Prop :=
  ∀ pause ∈ w.pauses, pause.id = pauseId → pause.status = .opened →
    storableText idempotencyKey = idempotencyKey ∧ ¬pause.timeoutAt.any (· ≤ w.now)

/-- The pause that an answered request leaves. -/
structure Answered (values : Values) (w w' : World) (runId : RunId) (pauseId : PauseId)
    (idempotencyKey : Text) (value : Json) (pause : Pause) : Prop where
  mem : pause ∈ w'.pauses
  id_eq : pause.id = pauseId
  runId_eq : pause.runId = runId
  closed : pause.status ≠ .opened
  knows : ∀ hash, pause.Knows idempotencyKey hash ↔
    w.Takes pauseId idempotencyKey ∧ hash = values.jsonHash value

variable {runId : RunId} {pauseId : PauseId} {signal idempotencyKey : Text} {value : Json}
  {action : Action}

/-- A resolved pause lies among those of its transaction. -/
theorem mem_resolve (hpause : pause ∈ w.pauses) :
    set pause ∈ (w.resolve pause.id resolution set).pauses :=
  mem_map.mpr ⟨pause, hpause, if_pos rfl⟩

theorem RowsKept.resumePause (h : Delivery nothing w)
    (hnew : ∀ pause ∈ w.pauses, pause.status = .opened → pause.resumeIdempotencyKey = none)
    (hs : w.resumePause values runId pauseId idempotencyKey value = .ok (some w')) : RowsKept w w' ∧
      ∃ pause, Answered values w w' runId pauseId idempotencyKey value pause := by
  obtain ⟨pause, hpause, rfl, hrunId, hcases⟩ := resumePause_cases hs
  rcases hcases with ⟨hclosed, hknown, rfl⟩ | ⟨hopen, ⟨hover, hfinish⟩ | ⟨htime, hfinish⟩⟩
  · refine ⟨.refl w', pause, hpause, rfl, hrunId, hclosed, fun hash => ?_⟩
    have htakes : World.Takes w' pause.id idempotencyKey := by
      intro other hother hsame hopen
      rw [h.pause_eq hother hpause hsame] at hopen
      exact absurd hopen hclosed
    rw [Pause.Knows, hknown.1, hknown.2]
    exact ⟨fun hsame => ⟨htakes, (Option.some.inj hsame.2).symm⟩,
      fun hsame => ⟨rfl, congrArg some hsame.2.symm⟩⟩
  · have hrest := (Moves.resolvePause.quiet.trans (quiet_finish hfinish)).rowsKept
    refine ⟨(RowsKept.timeOut (h.opened hpause hopen)).trans (quiet_finish hfinish).rowsKept, _,
      hrest.closed _ (mem_resolve hpause) nofun, rfl, hrunId, nofun,
      fun hash => ⟨fun hknows => ?_, fun htakes => ?_⟩⟩
    · have hnone := hknows.1
      rw [hnew pause hpause hopen] at hnone
      cases hnone
    · exact absurd hover (htakes.1 pause hpause rfl hopen).2
  · have hrest := (Moves.resolvePause.quiet.trans (quiet_finish hfinish)).rowsKept
    have hresolve : RowsKept w (w.resolve pause.id .resumed fun pause =>
        pause.resume (storableText idempotencyKey) (values.jsonHash value) value w.now) :=
      .resolve (h.opened hpause hopen) fun _ hstatus => nomatch hstatus
    refine ⟨hresolve.trans hrest, _, hrest.closed _ (mem_resolve hpause) nofun, rfl, hrunId,
      nofun, fun hash => ?_⟩
    rw [Pause.Knows, Pause.resume, Option.some.injEq, Option.some.injEq, eq_comm (b := hash)]
    refine and_congr_left fun _ => ⟨fun hkey other hother hsame _ => ?_, fun htakes =>
      (htakes pause hpause rfl hopen).1⟩
    rw [h.pause_eq hother hpause hsame]
    exact ⟨hkey, htime⟩

/-- A signal that is not refused for what it is. -/
structure Sendable (values : Values) (signal idempotencyKey : Text) (value : Json) : Prop where
  signal_length : ¬(signal.length < 1 ∨ 255 < signal.length)
  key_length : ¬(idempotencyKey.length < 1 ∨ 255 < idempotencyKey.length)
  bytes : ¬runSignalMaxBytes < values.encodedBytes value

theorem signalPayload_ok {name : Text} {hash : String}
    (h : signalPayload values signal idempotencyKey value = .ok (name, hash)) :
    Sendable values signal idempotencyKey value ∧ name = storableText signal ∧
      hash = values.payloadHash value := by
  unfold signalPayload at h
  split at h
  · cases h
  · rename_i hsignal
    split at h
    · cases h
    · rename_i hkey
      split at h
      · cases h
      · rename_i hbytes
        obtain ⟨rfl, rfl⟩ := Prod.mk.inj (Except.ok.inj h)
        exact ⟨⟨hsignal, hkey, hbytes⟩, rfl, rfl⟩

/-- The signal that a request leaves where it was answered. -/
structure Received (values : Values) (w' : World) (runId : RunId) (signal idempotencyKey : Text)
    (value : Json) (row : Signal) : Prop where
  mem : row ∈ w'.signals
  runId_eq : row.runId = runId
  name_eq : row.signalName = storableText signal
  key_eq : row.idempotencyKey = storableText idempotencyKey
  hash_eq : row.payloadHash = values.payloadHash value

theorem Received.kept {row : Signal} (h : RowsKept w w')
    (hrow : Received values w runId signal idempotencyKey value row) :
    ∃ row, Received values w' runId signal idempotencyKey value row := by
  obtain ⟨row', hmem, hidentity⟩ :=
    mem_map.mp (h.signals (mem_map_of_mem hrow.mem))
  simp only [Signal.identity, Prod.mk.injEq] at hidentity
  obtain ⟨-, hrun, hname, hkey, hhash⟩ := hidentity
  exact ⟨row', hmem, hrun.trans hrow.runId_eq, hname.trans hrow.name_eq, hkey.trans hrow.key_eq,
    hhash.trans hrow.hash_eq⟩

theorem RowsKept.signalByKey {receipt : Receipt} (h : Delivery nothing w)
    (hs : w.signalByKey values runId signal idempotencyKey value = .ok (some (w', receipt))) :
    RowsKept w w' ∧ Sendable values signal idempotencyKey value ∧
      ∃ row, Received values w' runId signal idempotencyKey value row := by
  obtain ⟨name, hash, hpayload, hcases⟩ := signalByKey_cases hs
  obtain ⟨hsendable, rfl, rfl⟩ := signalPayload_ok hpayload
  rcases hcases with ⟨existing, hmem, hrun, hkey, hname, hhash, rfl⟩ |
    ⟨-, row, hrow, w₁, rfl, found, hfound, hrest⟩
  · exact ⟨.refl w', hsendable, existing, hmem, hrun, hname, hkey, hhash⟩
  · have hinsert : RowsKept w { w with
        signals := w.signals ++ [row], nextSequence := w.nextSequence + 1 } :=
      ⟨fun _ hpause _ => hpause, fun _ hpause _ => .inl hpause,
        map_subset _ (subset_append_left _ _)⟩
    have hreceived : Received values { w with
        signals := w.signals ++ [row], nextSequence := w.nextSequence + 1 } runId signal
          idempotencyKey value row := by
      refine ⟨mem_append_right _ (mem_singleton.mpr rfl), ?_, ?_, ?_, ?_⟩ <;> rw [hrow]
    have hkept : RowsKept { w with
        signals := w.signals ++ [row], nextSequence := w.nextSequence + 1 } w' := by
      rcases hrest with ⟨-, rfl⟩ | ⟨pause, result, rfl, hnamed, hfinish⟩
      · exact .refl _
      · have hmatch := List.find?_some hfound
        simp only [Bool.and_eq_true, decide_eq_true_eq] at hmatch
        refine (RowsKept.resolveNamedPause ?_ hnamed).trans (quiet_finish hfinish).rowsKept
        exact h.opened (mem_of_find?_eq_some hfound) hmatch.2
    exact ⟨hinsert.trans hkept, hsendable, hreceived.kept hkept⟩

/-! ## Every run -/

/-- No open pause has a key. -/
def World.NoOpenKey (w : World) : Prop :=
  ∀ pause ∈ w.pauses, pause.status = .opened → pause.resumeIdempotencyKey = none

theorem RowsKept.noOpenKey (h : RowsKept w w') (hnew : w.NoOpenKey) : w'.NoOpenKey := by
  intro pause hpause hopen
  rcases h.opened pause hpause hopen with hold | hnone
  · exact hnew pause hold hopen
  · exact hnone

/-- What holds of the rows in every state that is reached. -/
structure RowsSound (w : World) : Prop where
  delivery : Delivery nothing w
  noOpenKey : w.NoOpenKey
  bounded : w.Bounded

theorem rowsKept_step (h : RowsSound w) (hs : step values w action = some w') : RowsKept w w' := by
  cases step_stepped hs with
  | moves hmoves => exact hmoves.quiet.rowsKept
  | cancels hcancel hrest => exact ((quiet_cancel hcancel).trans hrest.quiet).rowsKept
  | suspends hsuspend => exact .suspendForPause h.delivery hsuspend
  | signals hsignal => exact (RowsKept.signalByKey h.delivery hsignal).1
  | resumes hresume => exact (RowsKept.resumePause h.delivery h.noOpenKey hresume).1
  | timesOut htimeout => exact .resolvePauseTimeout h.delivery htimeout

theorem rowsSound_step (h : RowsSound w) (hs : step values w action = some w') : RowsSound w' where
  delivery := delivery_step h.delivery hs
  noOpenKey := (rowsKept_step h hs).noOpenKey h.noOpenKey
  bounded := (Grows.step hs h.bounded).1

theorem rowsSound_reachable {now : Nat} (h : Reach (step values) anyEvent (empty now) w) :
    RowsSound w := by
  refine h.invariant ⟨delivery_empty now, ?_, ?_⟩ fun _ _ _ hinv _ => rowsSound_step hinv
  · intro pause hpause
    cases hpause
  · intro r run hrun
    cases hrun

/-- A run keeps the answered rows, and the runs. -/
theorem rowsKept_reach (h : RowsSound w) (hr : Reach (step values) anyEvent w w') :
    RowsSound w' ∧ RowsKept w w' ∧ Stays w w' :=
  hr.invariant (I := fun w' => RowsSound w' ∧ RowsKept w w' ∧ Stays w w')
    ⟨h, .refl w, .refl w⟩ fun _ _ _ hinv _ hs =>
      ⟨rowsSound_step hinv.1 hs, hinv.2.1.trans (rowsKept_step hinv.1 hs),
        hinv.2.2.trans (Grows.step hs hinv.1.bounded).2.2.1⟩

end Catamorphic.Execution.Coordinator
