import Catamorphic.Lib.CodeUnits
import Catamorphic.Lib.Json
import Catamorphic.Lib.Runs
import Catamorphic.Lib.Utf8Encode

/-!
# The stdio supervisor's request lines

The supervisor reads JSON lines from its input as chunks come, and answers each frame. A chunk is
made a text by itself, and joined to what was left of the chunks before it.
-/

namespace Catamorphic.SupervisorStdio

open Runs List Lines

/-! ## Frames -/

inductive ErrorCode
  | badRequest | notFound | conflict | internalError
  deriving DecidableEq

inductive Frame
  | health (id : JsonNumber)
  | invoke (id : JsonNumber) (request : Option JsonValue)
  | cancel (id : JsonNumber) (invocationId : Text)
  /-- `FrameError` -/
  | malformed (id : JsonNumber) (message : Text)

def Frame.id : Frame → JsonNumber
  | .health id | .invoke id _ | .cancel id _ | .malformed id _ => id

/-- The body of a response. -/
inductive Body
  | health
  | cancellationRequested (invocationId : Text)
  | completed (response : JsonValue)

structure Response where
  id : JsonNumber
  body : Except (ErrorCode × Text) Body

def field (fields : List (Text × JsonValue)) (name : String) : Option JsonValue :=
  (fields.find? fun field => field.1 = Text.ofString name).map Prod.snd

/-- What came of the dispatcher's promise, or of the request before it got there. -/
inductive Outcome
  | canceled (found : Bool)
  | completed (response : JsonValue)
  | conflict (message : Text)
  | infrastructure (message : Text)
  | invalid (message : Text)

/-- How `handle` answers a frame when what it waits for has come. -/
def Frame.settle : Frame → Outcome → Option Response
  | .cancel id invocationId, .canceled true =>
    some { id, body := .ok (.cancellationRequested invocationId) }
  | .cancel id invocationId, .canceled false =>
    some { id, body := .error (.notFound, Text.ofString "Invocation '" ++ invocationId ++
      Text.ofString "' is not active") }
  | .invoke id _, .completed response => some { id, body := .ok (.completed response) }
  | .invoke id _, .conflict message => some { id, body := .error (.conflict, message) }
  | .invoke id _, .infrastructure message => some { id, body := .error (.internalError, message) }
  | .invoke id _, .invalid message => some { id, body := .error (.badRequest, message) }
  | _, _ => none

/-- How a frame is answered that waits for nothing. -/
def Frame.atOnce : Frame → Option Response
  | .health id => some { id, body := .ok .health }
  | .malformed id message => some { id, body := .error (.badRequest, message) }
  | _ => none

section

variable (parse : List Char → Option JsonValue) (isInteger : JsonNumber → Bool)

/-- The frame of a line that has an id to answer to. -/
def parseRequestFrame (line : List Char) : Option Frame :=
  match parse line with
  | some (.object value) =>
    match field value "id" with
    | some (.number id) =>
      if isInteger id then
        match field value "op" with
        | some (.string op) =>
          if op = Text.ofString "health" then some (.health id)
          else if op = Text.ofString "cancel" then
            match field value "invocationId" with
            | some (.string invocationId) =>
              if invocationId = [] then
                some (.malformed id (Text.ofString "cancel frame requires invocationId"))
              else some (.cancel id invocationId)
            | _ =>
              some (.malformed id (Text.ofString "cancel frame requires invocationId"))
          else if op = Text.ofString "invoke" then
            some (.invoke id (field value "request"))
          else some (.malformed id (Text.ofString "Unknown frame op"))
        | _ => some (.malformed id (Text.ofString "Unknown frame op"))
      else none
    | _ => none
  | _ => none

/-- What the supervisor makes of a line. -/
def frameOf (line : List Char) : Option Frame :=
  if Text.trim line = [] then none else parseRequestFrame parse isInteger (Text.trim line)

end

/-! ## The input -/

/-- The supervisor's buffer, in UTF-16 units. -/
def bufferLimit : Nat := 16 * 1024 * 1024

/-- `text.length` -/
def units (text : List Char) : Nat := (Text.ofChars text).length

structure Intake where
  buffer : List Char := []
  stopped : Bool := false

/-- The lines that a chunk completes. -/
def Intake.onData (s : Intake) (chunk : List UInt8) : List (List Char) × Intake :=
  if s.stopped then ([], s)
  else
    let buffer := s.buffer ++ Utf8.decode chunk
    if bufferLimit < units buffer then ([], { buffer := [], stopped := true })
    else (Lines.lines '\n' buffer, { s with buffer := rest '\n' buffer })

def Intake.receive (s : Intake) : List (List UInt8) → List (List Char) × Intake
  | [] => ([], s)
  | chunk :: chunks =>
    let rest := (s.onData chunk).2.receive chunks
    ((s.onData chunk).1 ++ rest.1, rest.2)

/-! ## Answers -/

/-- A frame that was read; `waits` until what `handle` waits for has come. -/
structure Task where
  frame : Frame
  waits : Bool

/-- The intake, the frames that were read, and the responses written, each with its frame's place. -/
structure Supervisor where
  intake : Intake := {}
  tasks : List Task := []
  sent : List (Nat × Response) := []

def Supervisor.send (s : Supervisor) (place : Nat) (response : Response) : Supervisor :=
  if s.intake.stopped then s else { s with sent := s.sent ++ [(place, response)] }

def Supervisor.handle (s : Supervisor) (frame : Frame) : Supervisor :=
  let called := { s with tasks := s.tasks ++ [{ frame, waits := frame.atOnce.isNone }] }
  match frame.atOnce with
  | some response => called.send s.tasks.length response
  | none => called

inductive Event
  | data (chunk : List UInt8)
  /-- What the frame at the place waits for comes. -/
  | settle (place : Nat) (outcome : Outcome)

section

variable (parse : List Char → Option JsonValue) (isInteger : JsonNumber → Bool)

def step (s : Supervisor) : Event → Option Supervisor
  | .data chunk =>
    some (((s.intake.onData chunk).1.filterMap (frameOf parse isInteger)).foldl
      Supervisor.handle { s with intake := (s.intake.onData chunk).2 })
  | .settle place outcome =>
    match s.tasks[place]? with
    | some { frame, waits := true } =>
      (frame.settle outcome).map fun response =>
        { s with tasks := s.tasks.set place { frame, waits := false } }.send place response
    | _ => none

/-- The chunks of a run, in the order in which they come. -/
def chunksOf (events : List Event) : List (List UInt8) :=
  events.filterMap fun
    | .data chunk => some chunk
    | .settle _ _ => none

/-- Each frame of the sequence is one task, in order, that is answered once it waits no longer. -/
structure Answered (lines : List (List Char)) (s : Supervisor) : Prop where
  frames : s.tasks.map Task.frame = lines.filterMap (frameOf parse isInteger)
  once : ∀ place task, s.tasks[place]? = some task →
    (s.sent.filter fun sent => sent.1 = place).length = if task.waits then 0 else 1
  own : ∀ place response, (place, response) ∈ s.sent →
    ∃ task, s.tasks[place]? = some task ∧ response.id = task.frame.id

/-- **The frames of a sequence of lines are read and answered**, however other steps come between
the chunks. -/
structure Serves (lines : List (List Char)) (chunks : List (List UInt8)) : Prop where
  read : (({} : Intake).receive chunks).1 = lines
  goesOn : (({} : Intake).receive chunks).2.stopped = false
  answered : ∀ events s, chunksOf events = chunks → exec (step parse isInteger) {} events = some s →
    Answered parse isInteger lines s

end

/-! ## Where it holds -/

/-- No chunk starts inside a character. -/
def WellCut (chunks : List (List UInt8)) : Prop :=
  ∀ chunk ∈ chunks, ∀ b, chunk.head? = some b → ¬ Utf8.Continuation b

/-- Whenever a chunk comes, it fits into the buffer with the line that it goes on with. -/
def Fits (text : List Char) : List (List UInt8) → Prop
  | [] => True
  | chunk :: chunks =>
    units (rest '\n' text ++ Utf8.decode chunk) ≤ bufferLimit ∧
      Fits (text ++ Utf8.decode chunk) chunks

variable {response : Response} {frame : Frame}

/-! ## Answers, one each -/

section

variable {parse : List Char → Option JsonValue} {isInteger : JsonNumber → Bool}
variable {s s' : Supervisor} {lines : List (List Char)} {tasks : List Task} {place : Nat}
  {task : Task} {more : List (List Char)} {outcome : Outcome}

theorem Answered.initial : Answered parse isInteger [] {} :=
  ⟨rfl, fun _ _ h => (by cases h), fun _ _ h => absurd h not_mem_nil⟩

theorem Answered.withIntake (h : Answered parse isInteger lines s) (intake : Intake) :
    Answered parse isInteger lines { s with intake } := ⟨h.frames, h.once, h.own⟩

/-- Nothing was sent for a place that has no task. -/
theorem Answered.unsent (h : Answered parse isInteger lines s) {place : Nat}
    (hnone : s.tasks[place]? = none) : (s.sent.filter fun sent => sent.1 = place) = [] := by
  refine filter_eq_nil_iff.mpr fun ⟨place', response⟩ hsent heq => ?_
  obtain rfl := of_decide_eq_true heq
  obtain ⟨task, htask, -⟩ := h.own place' response hsent
  rw [hnone] at htask
  cases htask

/-- A response is sent for the task at a place, which waits no longer. -/
theorem Answered.send {before : Supervisor} (h : Answered parse isInteger lines before)
    (hopen : before.intake.stopped = false)
    (hframes : tasks.map Task.frame = more.filterMap (frameOf parse isInteger))
    (htask : tasks[place]? = some task) (hwaits : task.waits = false)
    (hid : response.id = task.frame.id)
    (hothers : ∀ other, other ≠ place → tasks[other]? = before.tasks[other]?)
    (hunsent : (before.sent.filter fun sent => sent.1 = place) = []) :
    Answered parse isInteger more ({ before with tasks }.send place response) := by
  rw [Supervisor.send, if_neg (by rw [hopen]; decide)]
  refine ⟨hframes, fun other task' htask' => ?_, fun other response' hsent => ?_⟩
  · dsimp only
    rw [filter_append]
    by_cases hother : other = place
    · subst hother
      obtain rfl := Option.some.inj (htask.symm.trans htask')
      rw [hunsent, hwaits, nil_append, filter_cons, if_pos (decide_eq_true rfl)]
      rfl
    · rw [filter_cons_of_neg (by simpa using Ne.symm hother), filter_nil,
        append_nil]
      exact h.once other task' ((hothers other hother).symm.trans htask')
  · rcases mem_append.mp hsent with hold | hnew
    · obtain ⟨task', htask', hid'⟩ := h.own other response' hold
      refine ⟨task', (hothers other ?_).trans htask', hid'⟩
      rintro rfl
      exact filter_eq_nil_iff.mp hunsent (_, response') hold (decide_eq_true rfl)
    · obtain ⟨rfl, rfl⟩ := Prod.mk.inj (mem_singleton.mp hnew)
      exact ⟨task, htask, hid⟩

theorem atOnce_id (h : frame.atOnce = some response) : response.id = frame.id := by
  cases frame <;> cases h <;> rfl

theorem settle_id (h : frame.settle outcome = some response) : response.id = frame.id := by
  cases frame <;> cases outcome <;> try cases h
  case cancel.canceled id invocationId found => cases found <;> cases h <;> rfl
  all_goals rfl

theorem getElem?_append_length : (tasks ++ [task])[tasks.length]? = some task := by
  rw [List.getElem?_append_right (Nat.le_refl _), Nat.sub_self]
  rfl

theorem getElem?_append_ne
    (h : place ≠ tasks.length) : (tasks ++ [task])[place]? = tasks[place]? := by
  rcases Nat.lt_or_ge place tasks.length with hlt | hge
  · exact List.getElem?_append_left hlt
  · rw [List.getElem?_append_right hge, List.getElem?_eq_none hge]
    exact List.getElem?_eq_none (by simp only [length_singleton]; omega)

section

variable (h : Answered parse isInteger lines s) (hopen : s.intake.stopped = false)
include h hopen

theorem Answered.handle {line : List Char} (hframe : frameOf parse isInteger line = some frame) :
    Answered parse isInteger (lines ++ [line]) (s.handle frame) := by
  have hframes : (s.tasks ++ [(⟨frame, frame.atOnce.isNone⟩ : Task)]).map Task.frame =
      (lines ++ [line]).filterMap (frameOf parse isInteger) := by
    rw [map_append, h.frames, filterMap_append, filterMap_cons, hframe]
    rfl
  have hunsent := h.unsent (List.getElem?_eq_none (Nat.le_refl s.tasks.length))
  rw [Supervisor.handle]
  cases hatOnce : frame.atOnce with
  | some response =>
    rw [hatOnce] at hframes
    exact h.send hopen hframes getElem?_append_length rfl (atOnce_id hatOnce)
      (fun other => getElem?_append_ne) hunsent
  | none =>
    rw [hatOnce] at hframes
    refine ⟨hframes, fun place task htask => ?_, fun place response hsent => ?_⟩
    · by_cases hplace : place = s.tasks.length
      · subst hplace
        obtain rfl := Option.some.inj (getElem?_append_length.symm.trans htask)
        show (s.sent.filter _).length = _
        rw [hunsent]
        rfl
      · exact h.once place task ((getElem?_append_ne hplace).symm.trans htask)
    · obtain ⟨task, htask, hid⟩ := h.own place response hsent
      refine ⟨task, (getElem?_append_ne ?_).trans htask, hid⟩
      rintro rfl
      rw [List.getElem?_eq_none (Nat.le_refl _)] at htask
      cases htask

omit h hopen in
theorem handle_intake (s : Supervisor) (frame : Frame) : (s.handle frame).intake = s.intake := by
  rw [Supervisor.handle]
  cases frame.atOnce with
  | none => rfl
  | some response =>
    dsimp only
    rw [Supervisor.send]
    split <;> rfl

omit h hopen in
theorem handleAll_intake (s : Supervisor) (frames : List Frame) :
    (frames.foldl Supervisor.handle s).intake = s.intake := by
  induction frames generalizing s with
  | nil => rfl
  | cons frame frames ih => exact (ih _).trans (handle_intake s frame)

/-- The lines of a chunk are handled one after the other. -/
theorem Answered.handleAll : Answered parse isInteger (lines ++ more)
      ((more.filterMap (frameOf parse isInteger)).foldl Supervisor.handle s) := by
  induction more generalizing lines s with
  | nil =>
    rw [append_nil]
    exact h
  | cons line more ih =>
    rw [append_cons, filterMap_cons]
    cases hframe : frameOf parse isInteger line with
    | none =>
      refine ih ⟨?_, h.once, h.own⟩ hopen
      rw [filterMap_append, filterMap_cons, hframe]
      exact h.frames.trans (append_nil _).symm
    | some frame =>
      exact ih (h.handle hopen hframe) (by rwa [handle_intake])

theorem Answered.settle (hstep : step parse isInteger s (.settle place outcome) = some s') :
    Answered parse isInteger lines s' ∧ s'.intake = s.intake := by
  rw [step] at hstep
  split at hstep
  · next frame htask =>
    obtain ⟨response, hresponse, rfl⟩ := Option.map_eq_some_iff.mp hstep
    obtain ⟨hlt, -⟩ := List.getElem?_eq_some_iff.mp htask
    have hset : (s.tasks.set place ⟨frame, false⟩)[place]? = some ⟨frame, false⟩ :=
      List.getElem?_set_self hlt
    refine ⟨h.send hopen ?_ hset rfl
      (settle_id hresponse) (fun other hother => List.getElem?_set_ne (Ne.symm hother))
      (eq_nil_of_length_eq_zero (h.once place _ htask)), ?_⟩
    · rw [map_set, ← h.frames]
      refine ext_getElem? fun other => ?_
      by_cases hother : other = place
      · subst hother
        rw [List.getElem?_set_self (by rwa [length_map]), List.getElem?_map, htask]
        rfl
      · rw [List.getElem?_set_ne (Ne.symm hother)]
    · rw [Supervisor.send]
      split <;> rfl
  · cases hstep

end

theorem stopped_receive {intake : Intake} (h : intake.stopped = true)
    (chunks : List (List UInt8)) : (intake.receive chunks).2.stopped = true := by
  induction chunks with
  | nil => exact h
  | cons chunk chunks ih =>
    show ((intake.onData chunk).2.receive chunks).2.stopped = true
    rw [Intake.onData, if_pos h]
    exact ih

/-- **Every run answers the frames of the lines that were read**, as long as the supervisor goes
on. -/
theorem answered_exec {events : List Event} (h : Answered parse isInteger lines s)
    (hopen : (s.intake.receive (chunksOf events)).2.stopped = false)
    (hexec : exec (step parse isInteger) s events = some s') :
    Answered parse isInteger (lines ++ (s.intake.receive (chunksOf events)).1) s' := by
  induction events generalizing s lines with
  | nil =>
    cases hexec
    show Answered parse isInteger (lines ++ []) s'
    rw [append_nil]
    exact h
  | cons event events ih =>
    obtain ⟨next, hstep, hrest⟩ := Option.bind_eq_some_iff.mp hexec
    have hopen' : s.intake.stopped = false := by
      rcases hstopped : s.intake.stopped with _ | _
      · rfl
      · rw [stopped_receive hstopped] at hopen
        cases hopen
    cases event with
    | data chunk =>
      have hnext : (s.intake.onData chunk).2.stopped = false := by
        rcases hstopped : (s.intake.onData chunk).2.stopped with _ | _
        · rfl
        · exact absurd ((stopped_receive hstopped (chunksOf events)).symm.trans hopen) nofun
      cases hstep
      have hhandled := @Answered.handleAll _ _ _ _ (s.intake.onData chunk).1
        (h.withIntake (s.intake.onData chunk).2) hnext
      have hih := ih hhandled (by rw [handleAll_intake]; exact hopen) hrest
      rw [handleAll_intake, append_assoc] at hih
      exact hih
    | settle place outcome =>
      obtain ⟨hanswered, hintake⟩ := h.settle hopen' hstep
      have hih := ih hanswered (by rw [hintake]; exact hopen) hrest
      rwa [hintake] at hih

end

/-! ## What is read -/

section

variable {s : Intake} {text : List Char} {chunks : List (List UInt8)}

/-- What the chunks are made, each by itself. -/
def texts (chunks : List (List UInt8)) : List Char := chunks.flatMap Utf8.decode

theorem lines_append (text more : List Char) : Lines.lines '\n' (text ++ more) =
    Lines.lines '\n' text ++ Lines.lines '\n' (rest '\n' text ++ more) :=
  congrArg Prod.fst (split_rest_append text more)

theorem rest_append (text more : List Char) : rest '\n' (text ++ more) =
    rest '\n' (rest '\n' text ++ more) := by
  rw [rest, split_rest_append]

theorem onData_fits {chunk : List UInt8} (hopen : s.stopped = false)
    (hfits : units (s.buffer ++ Utf8.decode chunk) ≤ bufferLimit) :
    s.onData chunk = (Lines.lines '\n' (s.buffer ++ Utf8.decode chunk),
      { s with buffer := rest '\n' (s.buffer ++ Utf8.decode chunk) }) := by
  rw [Intake.onData, if_neg (by rw [hopen]; decide)]
  exact if_neg (Nat.not_lt.mpr hfits)

/-- **Chunks that fit are read as their texts' lines.** -/
theorem receive_of_fits (hopen : s.stopped = false) (hbuffer : s.buffer = rest '\n' text)
    (hfits : Fits text chunks) :
    Lines.lines '\n' text ++ (s.receive chunks).1 = Lines.lines '\n' (text ++ texts chunks) ∧
      (s.receive chunks).2.stopped = false := by
  induction chunks generalizing s text with
  | nil => exact ⟨by simp only [Intake.receive, texts, flatMap_nil, append_nil], hopen⟩
  | cons chunk chunks ih =>
    obtain ⟨hchunk, hfits⟩ := hfits
    have hdata := onData_fits hopen (by rwa [hbuffer])
    rw [hbuffer] at hdata
    have hopen' : (s.onData chunk).2.stopped = false := by rw [hdata]; exact hopen
    have hbuffer' : (s.onData chunk).2.buffer = rest '\n' (text ++ Utf8.decode chunk) := by
      rw [hdata]
      exact (rest_append text _).symm
    obtain ⟨hread, hgoes⟩ := ih hopen' hbuffer' hfits
    refine ⟨?_, hgoes⟩
    rw [texts, flatMap_cons, ← append_assoc]
    refine Eq.trans ?_ hread
    rw [Intake.receive, lines_append text, append_assoc, hdata]

/-- A supervisor that goes on was given chunks that fit. -/
theorem fits_of_receive (hopen : s.stopped = false) (hbuffer : s.buffer = rest '\n' text)
    (hgoes : (s.receive chunks).2.stopped = false) : Fits text chunks := by
  induction chunks generalizing s text with
  | nil => trivial
  | cons chunk chunks ih =>
    have hchunk : units (s.buffer ++ Utf8.decode chunk) ≤ bufferLimit := by
      by_contra hlarge
      have hstopped : (s.onData chunk).2.stopped = true := by
        rw [Intake.onData, if_neg (by rw [hopen]; decide)]
        rw [if_pos (Nat.not_le.mp hlarge)]
      exact Bool.false_ne_true (hgoes.symm.trans (stopped_receive hstopped chunks))
    have hdata := onData_fits hopen hchunk
    have hopen' : (s.onData chunk).2.stopped = false := by rw [hdata]; exact hopen
    refine ⟨hbuffer ▸ hchunk, ih hopen' ?_ hgoes⟩
    rw [hdata, hbuffer]
    exact (rest_append text _).symm

theorem texts_eq (hcut : WellCut chunks) : texts chunks = Utf8.decode chunks.flatten := by
  induction chunks using List.reverseRecOn with
  | nil => rfl
  | append_singleton chunks chunk ih =>
    rw [texts, flatMap_append, flatten_append, Utf8.decode_append (.inr ?_)]
    · rw [← ih fun other hother => hcut other (mem_append_left _ hother)]
      simp [texts]
    · rw [flatten_singleton]
      exact hcut chunk (mem_append_right _ (.head _))

end

/-! ## Characters that are cut -/

section

/-- How many characters start in the bytes. -/
def leads (bytes : List UInt8) : Nat := bytes.countP fun b => ¬ Utf8.Continuation b

theorem leads_encode (text : List Char) : leads (Utf8.encode text) = text.length := by
  induction text with
  | nil => rfl
  | cons c text ih =>
    obtain ⟨first, conts, hshape, hfirst, hconts, -⟩ := Utf8.encodeChar_shape c
    rw [Utf8.encode_cons, leads, countP_append, hshape]
    have hnone : conts.countP (fun b => ¬ Utf8.Continuation b) = 0 :=
      countP_eq_zero.mpr fun b hb => by simpa using hconts b hb
    rw [countP_cons_of_pos (by simpa using hfirst), hnone, length_cons]
    rw [leads] at ih
    omega

theorem leads_append (s t : List UInt8) : leads (s ++ t) = leads s + leads t := countP_append

theorem leads_cons (b : UInt8) (bytes : List UInt8) :
    leads (b :: bytes) = leads bytes + if Utf8.Continuation b then 0 else 1 := by
  by_cases hb : Utf8.Continuation b <;> simp [hb, leads]

/-- Bytes that go on with a character. -/
def GoesOn (st : Utf8.State) (bytes : List UInt8) : Prop :=
  st ≠ .start ∨ ∃ b, bytes.head? = some b ∧ Utf8.Continuation b

/-- What a byte starts, it writes or leaves open. -/
theorem one_le_byte (st : Utf8.State) (b : UInt8) :
    1 ≤ (Utf8.byte st b).1.length + if (Utf8.byte st b).2 = .start then 0 else 1 := by
  rcases Utf8.byte_writes st b with hwrites | hopen
  · have := length_pos_iff.mpr hwrites
    omega
  · rw [if_neg hopen]
    omega

/-- What is written for bytes is a character for each that starts in them, and one more where they
go on with a character. -/
theorem length_decodeFrom {st : Utf8.State} (hsound : Utf8.Sound st) (bytes : List UInt8) :
    leads bytes ≤ (Utf8.decodeFrom st bytes).length ∧
      (GoesOn st bytes → leads bytes + 1 ≤ (Utf8.decodeFrom st bytes).length) := by
  induction bytes generalizing st with
  | nil =>
    refine ⟨Nat.zero_le _, ?_⟩
    rintro (hst | ⟨b, hb, -⟩)
    · cases st with
      | start => exact absurd rfl hst
      | more => exact Nat.le_refl 1
    · cases hb
  | cons b bytes ih =>
    obtain ⟨hall, hgoes⟩ := ih (Utf8.byte_sound hsound b)
    rw [Utf8.decodeFrom, length_append, leads_cons]
    have hrest : leads bytes + (if (Utf8.byte st b).2 = .start then 0 else 1) ≤
        (Utf8.decodeFrom (Utf8.byte st b).2 bytes).length := by
      split
      · exact hall
      · next hopen => exact hgoes (.inl hopen)
    have hone := one_le_byte st b
    by_cases hb : Utf8.Continuation b
    · rw [if_pos hb]
      exact ⟨by omega, fun _ => by omega⟩
    · rw [if_neg hb]
      refine ⟨by omega, ?_⟩
      rintro (hst | ⟨b', hb', hcontinues⟩)
      · -- the byte ends what came before it, and starts anew
        have hbyte := Utf8.byte_of_not_continuation hsound hb
        have hstart := one_le_byte .start b
        cases st with
        | start => exact absurd rfl hst
        | more owed bits lower upper =>
          rw [hbyte, Utf8.finish] at hrest ⊢
          rw [show Utf8.byte .start b = Utf8.startByte b from rfl] at hstart
          rw [length_append, length_singleton]
          dsimp only at hrest ⊢
          omega
      · cases hb'
        exact absurd hcontinues hb

/-- A text that is cut inside a character has more characters. -/
theorem length_texts (chunks : List (List UInt8)) : leads chunks.flatten ≤ (texts chunks).length ∧
      (¬ WellCut chunks → leads chunks.flatten < (texts chunks).length) := by
  induction chunks with
  | nil => exact ⟨Nat.le_refl _, absurd (fun _ hmem => absurd hmem not_mem_nil)⟩
  | cons chunk chunks ih =>
    obtain ⟨hchunk, hmore⟩ := @length_decodeFrom .start trivial chunk
    rw [← Utf8.decode] at hchunk hmore
    rw [texts, flatMap_cons, flatten_cons, leads_append, length_append]
    rw [texts] at ih
    refine ⟨by omega, fun hcut => ?_⟩
    by_cases hrest : WellCut chunks
    · have hhead : ∃ b, chunk.head? = some b ∧ Utf8.Continuation b := by
        by_contra hno
        refine hcut fun other hother b hb hcontinues => ?_
        rcases mem_cons.mp hother with rfl | hother
        · exact hno ⟨b, hb, hcontinues⟩
        · exact hrest other hother b hb hcontinues
      have := hmore (.inr hhead)
      omega
    · have := ih.2 hrest
      omega

end

/-! ## Every way to cut the input -/

section

variable {parse : List Char → Option JsonValue} {isInteger : JsonNumber → Bool}
variable {lines : List (List Char)} {chunks : List (List UInt8)}

/-- After a newline byte nothing is left of a line. -/
theorem rest_texts {bytes : List UInt8} (h : chunks.flatten = bytes ++ [Utf8.newline]) :
    rest '\n' (texts chunks) = [] := by
  induction chunks using List.reverseRecOn generalizing bytes with
  | nil => cases bytes <;> cases h
  | append_singleton chunks chunk ih =>
    rw [flatten_append, flatten_singleton] at h
    rw [texts, flatMap_append, flatMap_singleton, ← texts]
    rcases eq_nil_or_concat chunk with rfl | ⟨start, last, rfl⟩
    · rw [append_nil] at h
      rw [show Utf8.decode [] = [] from rfl, append_nil]
      exact ih h
    · rw [concat_eq_append, ← append_assoc] at h
      obtain ⟨-, hlast⟩ := append_inj' h rfl
      obtain rfl := head_eq_of_cons_eq hlast
      rw [concat_eq_append, Utf8.decode_newline, ← append_assoc, rest, split_append_line]
      rfl

theorem encode_lines_ends (hne : lines ≠ []) :
    ∃ bytes, Utf8.encode (join '\n' lines) = bytes ++ [Utf8.newline] := by
  obtain ⟨start, last, rfl⟩ := (eq_nil_or_concat lines).resolve_left hne
  refine ⟨Utf8.encode (join '\n' start ++ last), ?_⟩
  rw [concat_eq_append, join_append, join_cons, join_nil, ← append_assoc, Utf8.encode_append]
  rfl

/-- Lines that are read as they were sent were cut between characters. -/
theorem wellCut_of_read (hchunks : chunks.flatten = Utf8.encode (join '\n' lines))
    (hread : Lines.lines '\n' (texts chunks) = lines) : WellCut chunks := by
  by_cases hne : lines = []
  · rw [hne] at hchunks
    intro chunk hchunk b hb
    rw [flatten_eq_nil_iff.mp hchunks chunk hchunk] at hb
    cases hb
  · by_contra hcut
    obtain ⟨bytes, hbytes⟩ := encode_lines_ends hne
    have htexts := join_split '\n' (texts chunks)
    rw [hread, rest_texts (hchunks.trans hbytes), append_nil] at htexts
    have hmore := (length_texts chunks).2 hcut
    rw [hchunks, leads_encode, htexts] at hmore
    exact Nat.lt_irrefl _ hmore

theorem serves_iff (hlines : ∀ line ∈ lines, '\n' ∉ line)
    (hchunks : chunks.flatten = Utf8.encode (join '\n' lines)) :
    Serves parse isInteger lines chunks ↔ WellCut chunks ∧ Fits [] chunks := by
  constructor
  · intro hserves
    have hfits : Fits [] chunks := fits_of_receive (s := {}) rfl rfl hserves.goesOn
    obtain ⟨hread, -⟩ := receive_of_fits (s := {}) rfl rfl hfits
    exact ⟨wellCut_of_read hchunks (hread.symm.trans hserves.read), hfits⟩
  · rintro ⟨hcut, hfits⟩
    obtain ⟨hread, hgoes⟩ := receive_of_fits (s := {}) rfl rfl hfits
    have htexts : texts chunks = join '\n' lines := by
      rw [texts_eq hcut, hchunks, Utf8.decode_encode]
    have hsplit := @Lines.split_join _ '\n' _ lines [] hlines not_mem_nil
    rw [append_nil] at hsplit
    rw [nil_append, htexts, Lines.lines, Lines.lines, hsplit] at hread
    refine ⟨hread, hgoes, fun events s hevents hexec => ?_⟩
    have hanswered := @answered_exec parse isInteger {} s [] events .initial
      (by rw [hevents]; exact hgoes) hexec
    rwa [hevents, nil_append, show (({} : Intake).receive chunks).1 = lines from hread]
      at hanswered

/-- `{"id":1,"op":"health"}` -/
def healthLine : List Char := "\x7b\"id\":1,\"op\":\"health\"\x7d".toList

end

/-! ## A character that is cut -/

/-- `{"id":1,"op":"cancel","invocationId":"é"}` -/
def cancelLine : List Char := "\x7b\"id\":1,\"op\":\"cancel\",\"invocationId\":\"é\"\x7d".toList

/-- The line, cut inside its last character but two. -/
def cutLine : List (List UInt8) :=
  [(Utf8.encode cancelLine).take 39, (Utf8.encode (cancelLine ++ ['\n'])).drop 39]

end Catamorphic.SupervisorStdio
