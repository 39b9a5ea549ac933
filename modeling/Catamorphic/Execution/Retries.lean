import Catamorphic.Execution.PayloadHash
import Catamorphic.Execution.ResolvedRows

/-!
# A request that is sent again

A request may be sent again with its key, after whatever other transactions came between. It has
no second effect where its payload is known again, and is refused where another payload has its
key.
-/

namespace Catamorphic.Execution.Coordinator

open Runs Option

inductive Request
  | resume (runId : RunId) (pauseId : PauseId)
  | signal (runId : RunId) (signal : Text)

def Request.runId : Request → RunId
  | .resume runId _ | .signal runId _ => runId

variable (values : Values)

def Request.hash : Request → Json → String
  | .resume .. => values.jsonHash
  | .signal .. => values.payloadHash

def World.answer (w : World) (request : Request) (idempotencyKey : Text) (value : Json) :
    Except SignalError (Option World) :=
  match request with
  | .resume runId pauseId => w.resumePause values runId pauseId idempotencyKey value
  | .signal runId signal =>
    (w.signalByKey values runId signal idempotencyKey value).map (Option.map Prod.fst)

/-- What a request is refused with whose key another payload has. -/
def Request.refusal (value : Json) : Request → SignalError
  | .resume .. => .conflict "Pause is already resolved"
  | .signal .. =>
    if runSignalMaxBytes < values.encodedBytes value then .limit "Signal value exceeds 64 KiB"
    else .conflict "Signal idempotency key was used with different content"

/-- A request is known again by its key exactly with a payload that is equal as JSON. -/
structure Request.Lawful (w : World) (idempotencyKey : Text) (a b : Json) (request : Request) :
    Prop where
  hash : request.hash values a = request.hash values b ↔ a.same b = true
  again : a.same b = true → w.answer values request idempotencyKey b = .ok (some w)
  refused : a.same b = false →
    w.answer values request idempotencyKey b = .error (request.refusal values b)

/-- A pause's payloads that are equal as JSON are written alike, and the first request was taken;
a signal's payloads are equal as they are stored where they are equal as they came. -/
def Request.Holds (w : World) (idempotencyKey : Text) (a b : Json) : Request → Prop
  | .resume _ pauseId => a.same b = true → a = b ∧ w.Takes pauseId idempotencyKey
  | .signal .. => a.stored.same b.stored = a.same b

variable {values} {w w' w₁ w₂ : World} {runId : RunId} {pauseId : PauseId} {pause : Pause}
  {signal idempotencyKey : Text} {value a b : Json}

theorem signalByKey_of_answer
    (h : w.answer values (.signal runId signal) idempotencyKey value = .ok (some w')) :
    ∃ receipt, w.signalByKey values runId signal idempotencyKey value =
      .ok (some (w', receipt)) := by
  rw [World.answer] at h
  cases hresult : w.signalByKey values runId signal idempotencyKey value with
  | error error =>
    rw [hresult] at h
    cases h
  | ok result =>
    rw [hresult] at h
    obtain ⟨⟨w'', receipt⟩, rfl, rfl⟩ := map_eq_some_iff.mp (Except.ok.inj h)
    exact ⟨receipt, rfl⟩

variable {request : Request}

theorem answer_step (h : w.answer values request idempotencyKey value = .ok (some w')) :
    ∃ action, step values w action = some w' := by
  cases request with
  | resume runId pauseId =>
    refine ⟨.resumePause runId pauseId idempotencyKey value, ?_⟩
    rw [World.answer] at h
    rw [step, h]
  | signal runId signal =>
    refine ⟨.signalByKey runId signal idempotencyKey value, ?_⟩
    obtain ⟨receipt, hsignal⟩ := signalByKey_of_answer h
    rw [step, hsignal]
    rfl

theorem answer_run (h : w.answer values request idempotencyKey value = .ok (some w')) :
    ∃ run, w.runs request.runId = some run := by
  cases hrun : w.runs request.runId with
  | some run => exact ⟨run, rfl⟩
  | none =>
    cases request with
    | resume runId pauseId =>
      have hnone : w.runs runId = none := hrun
      simp only [World.answer, World.resumePause, hnone] at h
      cases h
    | signal runId signal =>
      have hnone : w.runs runId = none := hrun
      cases hpayload : signalPayload values signal idempotencyKey value with
      | error error =>
        simp only [World.answer, World.signalByKey, hpayload] at h
        cases h
      | ok payload =>
        simp only [World.answer, World.signalByKey, hpayload, hnone] at h
        cases h

variable {run : Run} {row : Signal}

/-- The answer to a request that names a closed pause. -/
theorem resumePause_closed (h : RowsSound w) (hrun : w.runs runId = some run)
    (hpause : pause ∈ w.pauses) (hid : pause.id = pauseId) (hrunId : pause.runId = runId)
    (hclosed : pause.status ≠ .opened) : w.resumePause values runId pauseId idempotencyKey value =
      if pause.resumeIdempotencyKey = some idempotencyKey ∧
          pause.resumePayloadHash = some (values.jsonHash value) then .ok (some w)
      else .error (.conflict "Pause is already resolved") := by
  have hsome : (w.pauses.find? fun other =>
      other.id = pauseId && other.runId = runId).isSome := by
    rw [List.find?_isSome]
    exact ⟨pause, hpause, by simp [hid, hrunId]⟩
  obtain ⟨found, hfound⟩ := isSome_iff_exists.mp hsome
  have hmem := List.mem_of_find?_eq_some hfound
  have hsame := List.find?_some hfound
  simp only [Bool.and_eq_true, decide_eq_true_eq] at hsame
  obtain rfl := h.delivery.pause_eq hmem hpause (hsame.1.trans hid.symm)
  rw [World.resumePause, hrun]
  rw [hfound]
  dsimp only
  rw [if_pos hclosed]

/-- The answer to a signal whose key another one has. -/
theorem signalByKey_received (h : RowsSound w) (hrun : w.runs runId = some run)
    (hrow : Received values w runId signal idempotencyKey a row)
    (hsendable : Sendable values signal idempotencyKey a) :
    w.signalByKey values runId signal idempotencyKey b =
      if runSignalMaxBytes < values.encodedBytes b then
        .error (.limit "Signal value exceeds 64 KiB")
      else if values.payloadHash a = values.payloadHash b then .ok (some (w, row.receipt))
      else .error (.conflict "Signal idempotency key was used with different content") := by
  have hpayload : signalPayload values signal idempotencyKey b =
      if runSignalMaxBytes < values.encodedBytes b then
        .error (.limit "Signal value exceeds 64 KiB")
      else .ok (storableText signal, values.payloadHash b) := by
    rw [signalPayload, if_neg hsendable.signal_length, if_neg hsendable.key_length]
  have hsome : (w.signals.find? fun other => other.runId = runId &&
      other.idempotencyKey = storableText idempotencyKey).isSome := by
    rw [List.find?_isSome]
    exact ⟨row, hrow.mem, by simp [hrow.runId_eq, hrow.key_eq]⟩
  obtain ⟨found, hfound⟩ := isSome_iff_exists.mp hsome
  have hmatch := List.find?_some hfound
  simp only [Bool.and_eq_true, decide_eq_true_eq] at hmatch
  have hmem := List.mem_of_find?_eq_some hfound
  obtain rfl := h.delivery.signal_eq hmem hrow.mem (h.delivery.keys found hmem row hrow.mem
    (hmatch.1.trans hrow.runId_eq.symm) (hmatch.2.trans hrow.key_eq.symm))
  rw [World.signalByKey, hpayload]
  by_cases hbytes : runSignalMaxBytes < values.encodedBytes b
  · rw [if_pos hbytes, if_pos hbytes]
  · rw [if_neg hbytes, if_neg hbytes]
    rw [hrun]
    rw [hfound]
    dsimp only
    rw [hrow.name_eq, hrow.hash_eq]
    by_cases hhash : values.payloadHash a = values.payloadHash b
    · rw [if_pos hhash, if_neg (by simp [hhash])]
    · rw [if_neg hhash, if_pos (.inr hhash)]

section

variable {sha256 : Text → String} {column : Json → Json} {parseDuration : String → Option Nat}

/-- A pause's request that is sent again where its pause is closed. -/
theorem lawful_resume_iff (hapart : Apart sha256 a b) (ha : a.All JsonValue.Distinct)
    (h : RowsSound w₂) (hrun : w₂.runs runId = some run)
    (hanswered : Answered (requestValues sha256 column parseDuration) w w₂ runId pauseId
      idempotencyKey a pause) :
    (Request.resume runId pauseId).Lawful (requestValues sha256 column parseDuration) w₂
        idempotencyKey a b ↔
      (Request.resume runId pauseId).Holds w idempotencyKey a b := by
  have hanswer : w₂.resumePause (requestValues sha256 column parseDuration) runId pauseId
      idempotencyKey b = _ :=
    resumePause_closed h hrun hanswered.mem hanswered.id_eq hanswered.runId_eq hanswered.closed
  have hknows := hanswered.knows ((requestValues sha256 column parseDuration).jsonHash b)
  rw [Pause.Knows] at hknows
  have hhash := jsonHash_eq_iff column parseDuration hapart
  constructor
  · intro hlawful hsame
    refine ⟨hhash.mp (hlawful.hash.mpr hsame), ?_⟩
    have hagain := hlawful.again hsame
    rw [World.answer, hanswer] at hagain
    split at hagain
    · rename_i hknown
      exact (hknows.mp hknown).1
    · cases hagain
  · intro hholds
    refine ⟨?_, fun hsame => ?_, fun hother => ?_⟩
    · exact hhash.trans ⟨fun heq => heq ▸ JsonValue.same_refl ha, fun hsame => (hholds hsame).1⟩
    · obtain ⟨rfl, htakes⟩ := hholds hsame
      rw [World.answer, hanswer, if_pos (hknows.mpr ⟨htakes, rfl⟩)]
    · rw [World.answer, hanswer, if_neg]
      · rfl
      · intro hknown
        rw [hhash.mp (hknows.mp hknown).2.symm, ← hhash.mp (hknows.mp hknown).2.symm,
          JsonValue.same_refl ha] at hother
        cases hother

/-- A signal that is sent again. -/
theorem lawful_signal_iff (hapart : Apart sha256 a b) (h : RowsSound w₂)
    (hrun : w₂.runs runId = some run)
    (hrow : Received (requestValues sha256 column parseDuration) w₂ runId signal idempotencyKey a
      row)
    (hsendable : Sendable (requestValues sha256 column parseDuration) signal idempotencyKey a) :
    (Request.signal runId signal).Lawful (requestValues sha256 column parseDuration) w₂
        idempotencyKey a b ↔
      (Request.signal runId signal).Holds w idempotencyKey a b := by
  have hanswer := signalByKey_received (b := b) h hrun hrow hsendable
  have hhash := payloadHash_eq_iff column parseDuration hapart
  constructor
  · intro hlawful
    exact Bool.eq_iff_iff.mpr (hhash.symm.trans hlawful.hash)
  · intro hholds
    have hlaw := hhash.trans (Bool.eq_iff_iff.mp hholds)
    refine ⟨hlaw, fun hsame => ?_, fun hother => ?_⟩
    · have hencoded : encodedPayload a = encodedPayload b :=
        encodedPayload_eq_iff.mpr (hholds.trans hsame)
      have hbytes : ¬runSignalMaxBytes <
          (requestValues sha256 column parseDuration).encodedBytes b := by
        have hbytes := hsendable.bytes
        simp only [requestValues] at hbytes ⊢
        rwa [← hencoded]
      rw [World.answer, hanswer, if_neg hbytes, if_pos (hlaw.mpr hsame)]
      rfl
    · have hne : (requestValues sha256 column parseDuration).payloadHash a ≠
          (requestValues sha256 column parseDuration).payloadHash b := by
        intro heq
        rw [hlaw.mp heq] at hother
        cases hother
      rw [World.answer, hanswer, if_neg hne, Request.refusal]
      split
      · rfl
      · rfl

/--
**A request that is sent again is known by its key exactly with an equal payload**, after any
transactions that came between: of a pause where payloads that are equal as JSON are written
alike, its key is stored as it is and the pause had time left; of a signal where payloads are
equal as they are stored exactly where they are equal.
-/
theorem retried_by_key {now : Nat} {request : Request} (hapart : Apart sha256 a b)
    (ha : a.All JsonValue.Distinct)
    (hw : Reach (step (requestValues sha256 column parseDuration)) anyEvent (empty now) w)
    (hfirst : w.answer (requestValues sha256 column parseDuration) request idempotencyKey a =
      .ok (some w₁))
    (hlater : Reach (step (requestValues sha256 column parseDuration)) anyEvent w₁ w₂) :
    request.Lawful (requestValues sha256 column parseDuration) w₂ idempotencyKey a b ↔
      request.Holds w idempotencyKey a b := by
  have h := rowsSound_reachable hw
  obtain ⟨run, hrun⟩ := answer_run hfirst
  obtain ⟨action, hstep⟩ := answer_step hfirst
  obtain ⟨-, -, hstays⟩ := rowsKept_reach h ((Reach.tail .init trivial hstep).trans hlater)
  obtain ⟨run₂, hrun₂, -⟩ := hstays _ run hrun
  have h₁ := rowsSound_step h hstep
  obtain ⟨h₂, hkept, -⟩ := rowsKept_reach h₁ hlater
  cases request with
  | resume runId pauseId =>
      obtain ⟨-, pause, hanswered⟩ := RowsKept.resumePause h.delivery h.noOpenKey hfirst
      exact lawful_resume_iff hapart ha h₂ hrun₂ { hanswered with
        mem := hkept.closed pause hanswered.mem hanswered.closed }
  | signal runId signal =>
      obtain ⟨receipt, hsignal⟩ := signalByKey_of_answer hfirst
      obtain ⟨-, hsendable, row, hrow⟩ := RowsKept.signalByKey h.delivery hsignal
      obtain ⟨row₂, hrow₂⟩ := hrow.kept hkept
      exact lawful_signal_iff hapart h₂ hrun₂ hrow₂ hsendable

end

/-! ## The keys in another order -/

def digitNumber (unit : UInt16) (h : numberUnit unit = true) : Json :=
  .number ⟨[unit], List.cons_ne_nil unit [], fun _ hunit => List.mem_singleton.mp hunit ▸ h⟩

def inOrder : Json :=
  .object [(Text.ofString "a", digitNumber 0x31 rfl), (Text.ofString "b", digitNumber 0x32 rfl)]

def reordered : Json :=
  .object [(Text.ofString "b", digitNumber 0x32 rfl), (Text.ofString "a", digitNumber 0x31 rfl)]

/-- The digests of the two texts. -/
def digest (text : Text) : String :=
  if text = inOrder.stringify then
    "43258cff783fe7036d8a43033f830adfc60ec037382473548ac742b888292777"
  else if text = reordered.stringify then
    "3fb75453225c732a76b7899ea2096dda1455189c89817239732182f73fe5a09f"
  else ""

def digestValues : Values := requestValues digest id fun _ => none

theorem apart_reordered : Apart digest inOrder reordered where
  written := by decide +kernel
  encoded := fun _ => by decide +kernel

/-- A run waits at a pause. -/
def pausedRun : List Action :=
  [.start [⟨.boundary, none⟩, ⟨.boundary, none⟩] .null, .beginAttempt 0 0 true .boundary,
    .suspendForPause 0 true {}]

def requestKey : Text := Text.ofString "request"

/-- The answer to a first request, as a state. -/
def World.answered (w : World) (values : Values) (request : Request) (value : Json) :
    Option World :=
  match w.answer values request requestKey value with
  | .ok result => result
  | .error _ => none

theorem answer_of_answered (h : w.answered values request value = some w') :
    w.answer values request requestKey value = .ok (some w') := by
  rw [World.answered] at h
  split at h
  · rename_i result hresult
    rw [hresult, h]
  · cases h

theorem retried_by_key_reordered : ∃ w w₁, exec (step digestValues) (empty 0) pausedRun = some w ∧
      w.answer digestValues (.signal 0 requestKey) requestKey inOrder = .ok (some w₁) ∧
      (Request.signal 0 requestKey).Lawful digestValues w₁ requestKey inOrder reordered := by
  have hsome : ((exec (step digestValues) (empty 0) pausedRun).bind fun w =>
      w.answered digestValues (.signal 0 requestKey) inOrder).isSome = true := by
    decide +kernel
  obtain ⟨w₁, hw₁⟩ := isSome_iff_exists.mp hsome
  obtain ⟨w, hw, hanswered⟩ := bind_eq_some_iff.mp hw₁
  have hfirst := answer_of_answered hanswered
  have hdistinct : inOrder.All JsonValue.Distinct := by
    have hkeys : [Text.ofString "a", Text.ofString "b"].Nodup := by decide +kernel
    simp only [inOrder, JsonValue.all_object, List.mem_cons, List.not_mem_nil, or_false]
    refine ⟨hkeys, ?_⟩
    rintro field (rfl | rfl) <;> trivial
  refine ⟨w, w₁, hw, hfirst, ?_⟩
  exact (retried_by_key apart_reordered hdistinct (reach_of_exec hw) hfirst .init).mpr
    (show inOrder.stored.same reordered.stored = inOrder.same reordered by decide +kernel)

/-- What a second request is refused with after a first one. -/
def World.refusedAgain (w : World) (values : Values) (request : Request) (a b : Json) :
    Option SignalError :=
  (w.answered values request a).bind fun w₁ =>
    match w₁.answer values request requestKey b with
    | .ok _ => none
    | .error error => some error

/-- A pause's request that is sent again with its keys in another order is refused. -/
theorem reordered_refused : inOrder.same reordered = true ∧
      ((exec (step digestValues) (empty 0) pausedRun).bind fun w =>
        w.refusedAgain digestValues (.resume 0 0) inOrder reordered) =
          some (.conflict "Pause is already resolved") := by
  constructor <;> decide +kernel

end Catamorphic.Execution.Coordinator
