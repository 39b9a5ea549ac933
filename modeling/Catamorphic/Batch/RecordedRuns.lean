import Catamorphic.Batch.Item
import Catamorphic.Lib.Decimal
import Catamorphic.Lib.Lines

/-!
# Recorded runs follow the uninterrupted one

The record of an item holds, under a node and an occurrence, what the uninterrupted run has at
that call, as the table gives it back. A run that starts from such a record takes the path of
the uninterrupted run for as long as its batch steps are recorded, and what it writes back is
again such a record. Two things are asked of the code for it: that the body passes a suspension
on, and that what a plain step returns is the same value after it was stored.
-/

namespace Catamorphic.Batch

open List Option
open Playback (outcomes Path)

/-! ## Keys of the record -/

theorem colon_not_mem_toString (n : Nat) : ':' ∉ (toString n).toList := by
  rw [Nat.toString_eq_repr, Nat.toList_repr]
  intro h
  exact absurd (Nat.isDigit_of_mem_toDigits (by decide) (by decide) h) (by decide)

variable {nodeId : String}

/-- **A key is of one node and occurrence.** -/
theorem replayKey_inj {nodeId' : String} {occurrence occurrence' : Nat}
    (h : replayKey nodeId occurrence = replayKey nodeId' occurrence') :
    nodeId = nodeId' ∧ occurrence = occurrence' := by
  have hlist := congrArg (fun s => s.toList.reverse) h
  simp only [replayKey, String.toList_append, reverse_append] at hlist
  -- Read from its end, a key has its first colon before the occurrence.
  have hcolon : ∀ n, ':' ∉ (toString n).toList.reverse := fun n hmem =>
    colon_not_mem_toString n (mem_reverse.mp hmem)
  obtain ⟨hocc, hnode⟩ := Lines.append_cons_inj (hcolon occurrence) (hcolon occurrence') hlist
  exact ⟨String.toList_inj.mp (reverse_injective hnode),
    Decimal.toString_inj (reverse_injective hocc)⟩

variable {replay : Replay} {output : Json} {key : String}

theorem Replay.get_mem (h : replay.get key = some output) : (key, output) ∈ replay := by
  obtain ⟨⟨key', output'⟩, hfind, rfl⟩ := map_eq_some_iff.mp h
  have hmem := mem_reverse.mp (mem_of_find?_eq_some hfind)
  have hkey : key' = key := by simpa using List.find?_some hfind
  exact hkey ▸ hmem

theorem Replay.get_of_mem (h : (key, output) ∈ replay) : (replay.get key).isSome := by
  rw [Replay.get, isSome_map, List.find?_isSome]
  exact ⟨(key, output), mem_reverse.mpr h, by simp⟩

/-- A step that later runs are answered from. -/
def Recorded (rows : List StepRow) (nodeId : String) (occurrence : Nat) : Prop :=
  ∃ row ∈ rows, row.nodeId = nodeId ∧ row.occurrence = occurrence ∧ row.recorded

variable {rows : List StepRow} {occurrence : Nat}

theorem loadReplay_get (h : (loadReplay rows).get (replayKey nodeId occurrence) = some output) :
    ∃ row ∈ rows, row.nodeId = nodeId ∧ row.occurrence = occurrence ∧
      row.status = .completed ∧ row.output = some output := by
  obtain ⟨row, hrow, hentry⟩ := mem_filterMap.mp (Replay.get_mem h)
  split at hentry
  · rename_i hstatus
    obtain ⟨output', houtput, hpair⟩ := map_eq_some_iff.mp hentry
    obtain ⟨hkey, rfl⟩ := Prod.mk.inj hpair
    obtain ⟨hnode, hocc⟩ := replayKey_inj hkey
    exact ⟨row, hrow, hnode, hocc, hstatus, houtput⟩
  · cases hentry

/-- **A run is answered from the record just where a row says so.** -/
theorem loadReplay_isSome : ((loadReplay rows).get (replayKey nodeId occurrence)).isSome ↔
      Recorded rows nodeId occurrence := by
  constructor
  · intro h
    obtain ⟨output, houtput⟩ := isSome_iff_exists.mp h
    obtain ⟨row, hrow, hnode, hocc, hstatus, hout⟩ := loadReplay_get houtput
    exact ⟨row, hrow, hnode, hocc, by simp [StepRow.recorded, hstatus, hout]⟩
  · rintro ⟨row, hrow, rfl, rfl, hrecorded⟩
    rw [StepRow.recorded, Bool.and_eq_true, decide_eq_true_eq] at hrecorded
    obtain ⟨output, houtput⟩ := isSome_iff_exists.mp hrecorded.2
    have hmem : (replayKey row.nodeId row.occurrence, output) ∈ loadReplay rows := by
      refine mem_filterMap.mpr ⟨row, hrow, ?_⟩
      rw [if_pos hrecorded.1, houtput, map_some]
    exact Replay.get_of_mem hmem

/-! ## What a record says of the uninterrupted run -/

/-- What is relied on of a `jsonb` column: a text it gave back it stores as it is. -/
structure StoresJson (jsonb : Json → Json) : Prop where
  again : ∀ value, jsonbText value = value → jsonb (jsonb value) = jsonb value
  storable : ∀ value, jsonbText value = value → jsonbText (jsonb value) = jsonb value

variable {w : Process} {call : Call} {outcome : Outcome}

theorem Process.stored_stored (h : StoresJson w.jsonb) (value : Json) :
    w.stored (w.stored value) = w.stored value := by
  have htext := jsonbText_jsonbText value
  rw [Process.stored, Process.stored, h.storable _ htext, h.again _ htext]

/-- The value is the same after it was stored and read. -/
def Process.Stable (w : Process) (value : Value) : Prop :=
  (w.stored (toProtocolJson value)).toValue = value

theorem Process.stable_stored (h : StoresJson w.jsonb) (value : Json) :
    w.Stable (w.stored value).toValue := by
  rw [Process.Stable, toProtocolJson_toValue, w.stored_stored h]

/-- The uninterrupted run makes the call after this path. -/
def Process.At (w : Process) (path : Steps) (call : Call) : Prop :=
  w.Direct path ∧ w.next (outcomes path) = some call

theorem Process.At.unique {path path' : Steps} {call call' : Call} (h : w.At path call)
    (h' : w.At path' call') (hnode : call.nodeId = call'.nodeId)
    (hocc : occurrenceOf path call.nodeId = occurrenceOf path' call'.nodeId) :
    path = path' ∧ call = call' := by
  obtain rfl := h.1.call_unique h'.1 h.2 h'.2 hnode hocc
  exact ⟨rfl, some.inj (h.2.symm.trans h'.2)⟩

/-- What the uninterrupted run has at the call of this name is this output, as it is stored. -/
def Process.RecordedAs (w : Process) (nodeId : String) (occurrence : Nat) (output : Json) : Prop :=
  ∀ path call, w.At path call → call.nodeId = nodeId → occurrenceOf path nodeId = occurrence →
    ∃ value, w.answer occurrence call = some (.ok value) ∧
      output = w.stored (toProtocolJson value) ∧ w.Stable value

/-- An output that was read is written as it is. -/
theorem Process.RecordedAs.again (hjson : StoresJson w.jsonb)
    (h : w.RecordedAs nodeId occurrence output) :
    w.RecordedAs nodeId occurrence (w.stored (toProtocolJson output.toValue)) := by
  intro path call hat hnode hocc
  obtain ⟨value, hanswer, rfl, hstable⟩ := h path call hat hnode hocc
  exact ⟨value, hanswer, by rw [toProtocolJson_toValue, w.stored_stored hjson], hstable⟩

/-- Every completed row of the table is a true record. -/
def Process.SoundRows (w : Process) (rows : List StepRow) : Prop :=
  ∀ row ∈ rows, row.status = .completed → ∀ output, row.output = some output →
    w.RecordedAs row.nodeId row.occurrence output

/-! ## Conditions on the code and on a run -/

/-- **The body passes on the suspension of a batch step.** -/
def Process.PassesSuspensions (w : Process) : Prop :=
  ∀ path call suspension, w.At path call →
    w.body (outcomes path ++ [.error (.suspension suspension)]) = .rethrows path.length

/-- **What a plain step returns is the same value after it was stored.** -/
def Process.StableOutputs (w : Process) : Prop :=
  ∀ path call value, w.At path call →
    (unrecorded w.moduleExports w.fn call (occurrenceOf path call.nodeId)).1 = .ok value →
    w.Stable value

def Fault.isFailure : Fault → Bool
  | .skipped _ => false
  | .rateLimited _ _ | .error _ => true

/-- What plain steps come to in a run: what they come to in the uninterrupted one, or a failure
that ends the attempt. -/
def Process.FitsRun (w : Process) (fn : String → Nat → Value → Except Fault Value) : Prop :=
  ∀ path call, w.At path call →
    let occurrence := occurrenceOf path call.nodeId
    fn call.nodeId occurrence call.input = w.fn call.nodeId occurrence call.input ∨
      ∃ fault, fn call.nodeId occurrence call.input = .error fault ∧ fault.isFailure ∧
        w.body (outcomes path ++ [.error (.fault fault)]) = .rethrows path.length

theorem Process.fitsRun_self : w.FitsRun w.fn := fun _ _ _ => .inl rfl

/-- How the run of a record compares with the uninterrupted one, by its path and its end. -/
inductive Process.Followed (w : Process) (rows : List StepRow)
    (fn : String → Nat → Value → Except Fault Value) (budget : Nat) : Steps → Terminal → Prop
  /-- It is the same run. -/
  | ended {path : Steps} {terminal : Terminal} : w.DirectEnd path terminal →
      Followed w rows fn budget path terminal
  /-- It was cut after that many calls. -/
  | interrupted {path : Steps} {call : Call} {error : String} : w.At path call →
      path.length = budget → Followed w rows fn budget path (.interrupted error)
  /-- It came to a batch step that is not recorded. -/
  | suspended {path : Steps} {call : Call} {suspension : Suspension} : w.At path call →
      (unrecorded w.moduleExports w.fn call (occurrenceOf path call.nodeId)).1 =
        .error (.suspension suspension) →
      ¬ Recorded rows call.nodeId (occurrenceOf path call.nodeId) →
      Followed w rows fn budget (path ++ [(call, .error (.suspension suspension))])
        (.suspended suspension)
  /-- A step failed that does not fail in the uninterrupted run. -/
  | failed {path : Steps} {call : Call} {fault : Fault} : w.At path call →
      fn call.nodeId (occurrenceOf path call.nodeId) call.input ≠
        w.fn call.nodeId (occurrenceOf path call.nodeId) call.input →
      fault.isFailure →
      Followed w rows fn budget (path ++ [(call, .error (.fault fault))]) fault.terminal

/-! ## One call -/

/-- What an unrecorded step comes to: a batch step suspends, a step that is no batch step is run,
and resolving either may throw. -/
theorem unrecorded_cases (moduleExports : Exports) (call : Call) (occurrence : Nat) :
    (∃ partition?, ∀ fn, unrecorded moduleExports fn call occurrence =
        (.error (.suspension (call.suspension occurrence partition?)), none)) ∨
      (∃ message, ∀ fn, unrecorded moduleExports fn call occurrence =
        (.error (.fault (.error message)), none)) ∨
      ∀ fn, unrecorded moduleExports fn call occurrence =
        match fn call.nodeId occurrence call.input with
        | .ok value => (.ok value, some (call.completed occurrence value))
        | .error fault => (.error (.fault fault), some (call.failed occurrence fault)) := by
  simp only [unrecorded]
  cases resolveBatchStep moduleExports call.functionName with
  | error message => exact .inr (.inl ⟨message, fun _ => rfl⟩)
  | ok resolved =>
    cases resolved with
    | none => exact .inr (.inr fun _ => rfl)
    | some partitionBy =>
      cases hpartition : partitionOf partitionBy call.input with
      | error message => exact .inr (.inl ⟨message, fun _ => by simp only [hpartition]⟩)
      | ok partition? => exact .inl ⟨partition?, fun _ => by simp only [hpartition]⟩

/-- A step that does not suspend comes to the same in the uninterrupted run. -/
theorem Process.answer_of_unrecorded
    (h : (unrecorded w.moduleExports w.fn call occurrence).1 = outcome)
    (hrun : ∀ suspension, outcome ≠ .error (.suspension suspension)) :
    w.answer occurrence call = some outcome := by
  rw [Process.answer, h]
  split
  · rename_i suspension
    exact absurd rfl (hrun suspension)
  · rfl

@[simp] theorem Recorder.outcomes_eq (r : Recorder) : r.outcomes = Playback.outcomes r.path := by
  rw [Recorder.outcomes, Playback.outcomes, Recorder.path, List.map_map]
  rfl

/-- The run has followed the uninterrupted one. -/
structure Process.Following (w : Process) (r : Recorder) : Prop where
  /-- Its path is one of the uninterrupted run. -/
  direct : w.Direct r.path
  /-- It counts the calls of each node. -/
  counts : ∀ nodeId, r.occurrences nodeId = occurrenceOf r.path nodeId

/-- What is known of the steps of a run, up to its last. -/
structure Process.Noted (w : Process) (rows : List StepRow) (r : Recorder) : Prop where
  /-- A step has the name of its call. -/
  named : ∀ taken ∈ r.taken, ∃ path, w.At path taken.call ∧
    taken.occurrence = occurrenceOf path taken.call.nodeId
  /-- A completed step is a true record. -/
  completed : ∀ entry ∈ r.steps, entry.status = .completed → ∃ output,
    entry.output = some output ∧ w.RecordedAs entry.nodeId entry.occurrence (w.stored output)
  /-- Only unrecorded steps fail. -/
  incomplete : ∀ entry ∈ r.steps, entry.status ≠ .completed →
    ¬ Recorded rows entry.nodeId entry.occurrence
  /-- Only unrecorded steps are run. -/
  events : ∀ entry ∈ r.events, entry ∈ r.steps ∧ ¬ Recorded rows entry.nodeId entry.occurrence

theorem Process.Following.start (w : Process) : w.Following .start :=
  ⟨.nil, fun _ => rfl⟩

theorem Process.Noted.start (w : Process) (rows : List StepRow) : w.Noted rows .start := by
  constructor <;> simp [Recorder.start]

theorem takeStep_path (moduleExports : Exports) (replay : Replay)
    (fn : String → Nat → Value → Except Fault Value) (r : Recorder) (call : Call) :
    (takeStep moduleExports replay fn r call).path =
      r.path ++ [(call, (runStep moduleExports replay fn r call).1)] := by
  simp [takeStep, Recorder.path]

/-- Each call is counted. -/
theorem takeStep_occurrences (moduleExports : Exports) (replay : Replay)
    (fn : String → Nat → Value → Except Fault Value) (r : Recorder) (call : Call) :
    (takeStep moduleExports replay fn r call).occurrences =
      Function.update r.occurrences call.nodeId (r.occurrences call.nodeId + 1) := by
  simp only [takeStep, runStep]
  split <;> rfl

variable {r : Recorder} {fn : String → Nat → Value → Except Fault Value} {body : Body}

/-- A call that came to what it comes to in the uninterrupted run leaves the run following it. -/
theorem Process.Following.take (h : w.Following r) (hcall : w.next (outcomes r.path) = some call)
    (houtcome : (runStep w.moduleExports replay fn r call).1 = outcome)
    (hanswer : w.answer (occurrenceOf r.path call.nodeId) call = some outcome) :
    w.Following (takeStep w.moduleExports replay fn r call) where
  direct := by
    rw [takeStep_path, houtcome]
    exact h.direct.snoc hcall hanswer
  counts nodeId := by
    rw [takeStep_occurrences, takeStep_path, occurrenceOf, Playback.occurrence_snoc]
    by_cases hnode : call.nodeId = nodeId
    · rw [hnode, Function.update_self, if_pos rfl, h.counts, occurrenceOf]
    · rw [Function.update_of_ne (Ne.symm hnode), if_neg hnode, h.counts, occurrenceOf, Nat.add_zero]

/-- A step that is taken from the record. -/
theorem runStep_recorded (moduleExports : Exports) (fn : String → Nat → Value → Except Fault Value)
    (h : replay.get (replayKey call.nodeId (r.occurrences call.nodeId)) = some output)
    : (runStep moduleExports replay fn r call).1 = .ok output.toValue ∧
      (runStep moduleExports replay fn r call).2.steps =
        r.steps ++ [call.completed (r.occurrences call.nodeId) output.toValue] ∧
      (runStep moduleExports replay fn r call).2.events = r.events := by
  simp [runStep, h, Recorder.push]

theorem runStep_unrecorded (moduleExports : Exports)
    (fn : String → Nat → Value → Except Fault Value)
    (h : replay.get (replayKey call.nodeId (r.occurrences call.nodeId)) = none) :
    let fresh := unrecorded moduleExports fn call (r.occurrences call.nodeId)
    (runStep moduleExports replay fn r call).1 = fresh.1 ∧
      (runStep moduleExports replay fn r call).2.steps = r.steps ++ fresh.2.toList ∧
      (runStep moduleExports replay fn r call).2.events = r.events ++ fresh.2.toList := by
  simp [runStep, h, Recorder.report]

/-- What is to be known of a new step, for what is known of all. -/
theorem Process.Noted.take (h : w.Noted rows r) (hfollow : w.Following r)
    (hcall : w.next (outcomes r.path) = some call) (new : Option StepEntry)
    (hsteps : (runStep w.moduleExports replay fn r call).2.steps = r.steps ++ new.toList)
    (hevents : ∀ entry ∈ (runStep w.moduleExports replay fn r call).2.events, entry ∈ r.events ∨
      entry ∈ new ∧ ¬ Recorded rows entry.nodeId entry.occurrence)
    (hcompleted : ∀ entry ∈ new, entry.status = .completed → ∃ output,
      entry.output = some output ∧ w.RecordedAs entry.nodeId entry.occurrence (w.stored output))
    (hincomplete : ∀ entry ∈ new, entry.status ≠ .completed →
      ¬ Recorded rows entry.nodeId entry.occurrence) :
    w.Noted rows (takeStep w.moduleExports replay fn r call) := by
  have hmem : ∀ entry, entry ∈ (takeStep w.moduleExports replay fn r call).steps ↔
      entry ∈ r.steps ∨ entry ∈ new := by
    intro entry
    show entry ∈ (runStep w.moduleExports replay fn r call).2.steps ↔ _
    rw [hsteps, mem_append, mem_toList, mem_def]
  refine ⟨?_, ?_, ?_, ?_⟩
  · intro taken htaken
    rcases mem_append.mp htaken with hold | hnew
    · exact h.named taken hold
    · rw [mem_singleton.mp hnew]
      exact ⟨r.path, ⟨hfollow.direct, hcall⟩, hfollow.counts _⟩
  · intro entry hentry
    rcases (hmem entry).mp hentry with hold | hnew
    · exact h.completed entry hold
    · exact hcompleted entry hnew
  · intro entry hentry
    rcases (hmem entry).mp hentry with hold | hnew
    · exact h.incomplete entry hold
    · exact hincomplete entry hnew
  · intro entry hentry
    rcases hevents entry hentry with hold | ⟨hnew, hrec⟩
    · exact ⟨(hmem entry).mpr (.inl (h.events entry hold).1), (h.events entry hold).2⟩
    · exact ⟨(hmem entry).mpr (.inr hnew), hrec⟩

/-- **A step from a true record** is as in the uninterrupted run. -/
theorem Process.Following.recorded (fn : String → Nat → Value → Except Fault Value)
    (hjson : StoresJson w.jsonb) (hrows : w.SoundRows rows) (h : w.Following r)
    (hnoted : w.Noted rows r) (hcall : w.next (outcomes r.path) = some call)
    (houtput : (loadReplay rows).get (replayKey call.nodeId (r.occurrences call.nodeId)) =
      some output) :
    w.Following (takeStep w.moduleExports (loadReplay rows) fn r call) ∧
      w.Noted rows (takeStep w.moduleExports (loadReplay rows) fn r call) := by
  obtain ⟨hfirst, hsteps, hevents⟩ :=
    runStep_recorded w.moduleExports fn houtput
  obtain ⟨row, hrow, hnode, hocc, hstatus, hout⟩ := loadReplay_get houtput
  have hrecorded : w.RecordedAs call.nodeId (r.occurrences call.nodeId) output := by
    have hrow' := hrows row hrow hstatus output hout
    rwa [hnode, hocc] at hrow'
  constructor
  · obtain ⟨value, hanswer, houtput', hstable⟩ :=
      hrecorded r.path call ⟨h.direct, hcall⟩ rfl (h.counts _).symm
    rw [houtput', show (w.stored (toProtocolJson value)).toValue = value from hstable] at hfirst
    exact h.take hcall hfirst (h.counts call.nodeId ▸ hanswer)
  · refine hnoted.take h hcall (some (call.completed (r.occurrences call.nodeId)
      output.toValue)) hsteps ?_ ?_ ?_
    · intro entry hentry
      exact .inl (hevents ▸ hentry)
    · rintro entry ⟨⟩ _
      exact ⟨_, rfl, hrecorded.again hjson⟩
    · rintro entry ⟨⟩ hne
      exact absurd rfl hne

theorem runBody_ended {moduleExports : Exports} {terminal : Terminal}
    (h : body.next r.outcomes = .inr terminal) (budget : Nat) :
    runBody moduleExports replay fn body budget r = (terminal, r) := by
  cases budget <;> simp only [runBody, h]

/-- What the body rethrows ends the run. -/
theorem next_of_rethrows {path : Steps} {thrown : Thrown}
    (h : body (outcomes path ++ [.error thrown]) = .rethrows path.length) :
    body.next (outcomes (path ++ [(call, .error thrown)])) = .inr thrown.terminal := by
  have hlast : (outcomes (path ++ [(call, Except.error thrown)]))[path.length]? =
      some (.error thrown) := by
    simp
  have houtcomes : outcomes (path ++ [(call, Except.error thrown)]) =
      outcomes path ++ [.error thrown] := by
    simp
  rw [Body.next]
  rw [houtcomes] at hlast ⊢
  rw [h, Action.next, hlast]

/-- **One unrecorded step**: it is as in the uninterrupted run, or it ends the run. -/
theorem Process.Following.unrecorded (hstable : w.StableOutputs)
    (hpasses : w.PassesSuspensions) (hfits : w.FitsRun fn) (h : w.Following r)
    (hnoted : w.Noted rows r) (hcall : w.next (outcomes r.path) = some call)
    (hnone : (loadReplay rows).get (replayKey call.nodeId (r.occurrences call.nodeId)) = none)
    (budget : Nat) : let r' := takeStep w.moduleExports (loadReplay rows) fn r call
    w.Noted rows r' ∧ (w.Following r' ∨ ∃ terminal,
      w.body.next r'.outcomes = .inr terminal ∧ w.Followed rows fn budget r'.path terminal) := by
  intro r'
  have hocc := h.counts call.nodeId
  have hat : w.At r.path call := ⟨h.direct, hcall⟩
  have hfresh : ¬ Recorded rows call.nodeId (r.occurrences call.nodeId) := by
    rw [← loadReplay_isSome, hnone]
    exact Bool.false_ne_true
  obtain ⟨hfirst, hsteps, hevents⟩ :=
    runStep_unrecorded w.moduleExports fn hnone
  have hpath := takeStep_path w.moduleExports (loadReplay rows) fn r call
  rcases unrecorded_cases w.moduleExports call (r.occurrences call.nodeId) with
    ⟨partition?, hsuspends⟩ | ⟨message, hthrows⟩ | hruns
  · -- a batch step: the body passes its suspension on
    rw [hsuspends fn] at hfirst hsteps hevents
    constructor
    · refine hnoted.take h hcall none hsteps ?_ ?_ ?_
      · intro entry hentry
        rw [hevents, toList_none, append_nil] at hentry
        exact .inl hentry
      · rintro entry ⟨⟩
      · rintro entry ⟨⟩
    · refine .inr ⟨.suspended (call.suspension (r.occurrences call.nodeId) partition?), ?_, ?_⟩
      · rw [Recorder.outcomes_eq, hpath, hfirst]
        exact next_of_rethrows (hpasses r.path call _ hat)
      · rw [hpath, hfirst]
        refine .suspended hat ?_ (hocc ▸ hfresh)
        rw [← hocc, hsuspends]
  · -- a step that cannot be resolved
    rw [hthrows fn] at hfirst hsteps hevents
    constructor
    · refine hnoted.take h hcall none hsteps ?_ ?_ ?_
      · intro entry hentry
        rw [hevents, toList_none, append_nil] at hentry
        exact .inl hentry
      · rintro entry ⟨⟩
      · rintro entry ⟨⟩
    · refine .inl (h.take hcall hfirst (hocc ▸ w.answer_of_unrecorded ?_ ?_))
      · rw [hthrows]
      · intro suspension hne
        cases hne
  · -- a step that is run here
    have hdirect := hruns w.fn
    rw [hruns fn] at hfirst hsteps hevents
    cases hresult : fn call.nodeId (r.occurrences call.nodeId) call.input with
    | ok value =>
      simp only [hresult] at hfirst hsteps hevents
      have hsame : w.fn call.nodeId (r.occurrences call.nodeId) call.input = .ok value := by
        rcases hfits r.path call hat with heq | ⟨fault, hfault, -⟩
        · rw [hocc, ← heq, ← hocc, hresult]
        · rw [← hocc, hresult] at hfault
          cases hfault
      have hanswer : (Batch.unrecorded w.moduleExports w.fn call
          (r.occurrences call.nodeId)).1 = .ok value := by
        rw [hdirect, hsame]
      constructor
      · refine hnoted.take h hcall
          (some (call.completed (r.occurrences call.nodeId) value)) hsteps ?_ ?_ ?_
        · intro entry hentry
          rw [hevents, mem_append, mem_toList] at hentry
          refine hentry.imp_right fun hnew => ⟨hnew, ?_⟩
          cases hnew
          exact hfresh
        · rintro entry ⟨⟩ _
          refine ⟨_, rfl, fun path call' hat' hnode hocc' => ?_⟩
          have hkey : call'.nodeId = call.nodeId := hnode
          have hcount : occurrenceOf r.path call.nodeId = occurrenceOf path call'.nodeId := by
            rw [← hocc, hkey]
            exact hocc'.symm
          obtain ⟨rfl, rfl⟩ := hat.unique hat' hkey.symm hcount
          exact ⟨value, w.answer_of_unrecorded hanswer (fun _ => nofun), rfl,
            hstable _ _ _ hat (hocc ▸ hanswer)⟩
        · rintro entry ⟨⟩ hne
          exact absurd rfl hne
      · exact .inl (h.take hcall hfirst (hocc ▸ w.answer_of_unrecorded hanswer (fun _ => nofun)))
    | error fault =>
      simp only [hresult] at hfirst hsteps hevents
      constructor
      · refine hnoted.take h hcall
          (some (call.failed (r.occurrences call.nodeId) fault)) hsteps ?_ ?_ ?_
        · intro entry hentry
          rw [hevents, mem_append, mem_toList] at hentry
          refine hentry.imp_right fun hnew => ⟨hnew, ?_⟩
          cases hnew
          exact hfresh
        · rintro entry ⟨⟩ hcompleted
          cases hcompleted
        · rintro entry ⟨⟩ _
          exact hfresh
      · by_cases hsame : fn call.nodeId (occurrenceOf r.path call.nodeId) call.input =
          w.fn call.nodeId (occurrenceOf r.path call.nodeId) call.input
        · have hanswer : (Batch.unrecorded w.moduleExports w.fn call
              (r.occurrences call.nodeId)).1 = .error (.fault fault) := by
            rw [hdirect, hocc, ← hsame, ← hocc, hresult]
          exact .inl (h.take hcall hfirst
            (hocc ▸ w.answer_of_unrecorded hanswer (fun _ => nofun)))
        · obtain ⟨fault', hfault, hfails, hrethrows⟩ :=
            (hfits r.path call hat).resolve_left hsame
          obtain rfl : fault = fault' := by
            rw [← hocc, hresult] at hfault
            exact Except.error.inj hfault
          refine .inr ⟨fault.terminal, ?_, ?_⟩
          · rw [Recorder.outcomes_eq, hpath, hfirst]
            exact next_of_rethrows hrethrows
          · rw [hpath, hfirst]
            exact .failed hat hsame hfails

/-- **A run of a true record follows the uninterrupted run**, and what it notes is true. -/
theorem Process.Following.runBody (hjson : StoresJson w.jsonb) (hstable : w.StableOutputs)
    (hpasses : w.PassesSuspensions) (hfits : w.FitsRun fn) (hrows : w.SoundRows rows) (budget : Nat)
    (h : w.Following r) (hnoted : w.Noted rows r) :
    let run := runBody w.moduleExports (loadReplay rows) fn w.body budget r
    w.Noted rows run.2 ∧ w.Followed rows fn (r.path.length + budget) run.2.path run.1 := by
  have hnext : ∀ {r : Recorder} {call : Call}, w.body.next r.outcomes = .inl call →
      w.next (outcomes r.path) = some call := by
    intro r call hcall
    rw [← r.outcomes_eq, Process.next, hcall, Sum.getLeft?_inl]
  induction budget generalizing r with
  | zero =>
    cases hcall : w.body.next r.outcomes with
    | inr terminal =>
      rw [runBody_ended hcall]
      exact ⟨hnoted, .ended ⟨h.direct, r.outcomes_eq ▸ hcall⟩⟩
    | inl call =>
      simp only [Batch.runBody, hcall]
      exact ⟨hnoted, .interrupted ⟨h.direct, hnext hcall⟩ rfl⟩
  | succ budget ih =>
    cases hcall : w.body.next r.outcomes with
    | inr terminal =>
      rw [runBody_ended hcall]
      exact ⟨hnoted, .ended ⟨h.direct, r.outcomes_eq ▸ hcall⟩⟩
    | inl call =>
      simp only [Batch.runBody, hcall]
      have hlength : (takeStep w.moduleExports (loadReplay rows) fn r call).path.length +
          budget = r.path.length + (budget + 1) := by
        rw [takeStep_path, length_append, length_singleton]
        omega
      rw [← hlength]
      cases houtput : (loadReplay rows).get
          (replayKey call.nodeId (r.occurrences call.nodeId)) with
      | some output =>
        obtain ⟨hfollow', hnoted'⟩ :=
          h.recorded fn hjson hrows hnoted (hnext hcall) houtput
        exact ih hfollow' hnoted'
      | none =>
        obtain ⟨hnoted', hfollow' | ⟨terminal, hterminal, hfollowed⟩⟩ :=
          h.unrecorded hstable hpasses hfits hnoted (hnext hcall) houtput _
        · exact ih hfollow' hnoted'
        · rw [runBody_ended hterminal]
          exact ⟨hnoted', hfollowed⟩

end Catamorphic.Batch
