import Catamorphic.Batch.RecordedRuns

/-!
# Replay is transparent

Over every sequence of runs, lost deliveries and settled cohorts of an item, its rows stay a
true record of the uninterrupted run. So each of its runs follows that run, no recorded step is
run again, and the result of the item is that of the uninterrupted run.
-/

namespace Catamorphic.Batch

open List Option
open Playback (outcomes)
open Runs (Reach)

variable {w : Process}

variable {row : StepRow}

/-! ## Writes of the table -/

theorem StepRow.sameKey_iff {other : StepRow} : row.sameKey other ↔
    row.nodeId = other.nodeId ∧ row.occurrence = other.occurrence ∧
      row.attempt = other.attempt := by
  simp [StepRow.sameKey, and_assoc]

variable {set : StepRow → StepRow} {rows : List StepRow}

theorem mem_upsertStep {row' : StepRow} (h : row' ∈ upsertStep set rows row) :
    row' = row ∨ row' ∈ rows ∨ ∃ old ∈ rows, old.sameKey row ∧ row' = set old := by
  rw [upsertStep] at h
  split at h
  · obtain ⟨old, hold, rfl⟩ := mem_map.mp h
    split
    · rename_i hkey
      exact .inr (.inr ⟨old, hold, hkey, rfl⟩)
    · exact .inr (.inl hold)
  · rcases mem_append.mp h with hold | hnew
    · exact .inr (.inl hold)
    · exact .inl (mem_singleton.mp hnew)

variable {nodeId : String} {occurrence : Nat}

/-- A record is kept where the write leaves one under its key. -/
theorem Recorded.upsertStep (h : Recorded rows nodeId occurrence)
    (hset : row.nodeId = nodeId → row.occurrence = occurrence → ∀ old, old.sameKey row →
      (set old).sameKey row ∧ (set old).recorded) :
    Recorded (upsertStep set rows row) nodeId occurrence := by
  obtain ⟨old, hold, hnode, hocc, hrecorded⟩ := h
  rw [Batch.upsertStep]
  split
  · by_cases hkey : old.sameKey row
    · have hsame := StepRow.sameKey_iff.mp hkey
      obtain ⟨hkey', hrecorded'⟩ :=
        hset (hsame.1.symm.trans hnode) (hsame.2.1.symm.trans hocc) old hkey
      have hsame' := StepRow.sameKey_iff.mp hkey'
      refine ⟨set old, mem_map.mpr ⟨old, hold, if_pos hkey⟩, ?_, ?_, hrecorded'⟩
      · rw [hsame'.1, ← hsame.1, hnode]
      · rw [hsame'.2.1, ← hsame.2.1, hocc]
    · exact ⟨old, mem_map.mpr ⟨old, hold, if_neg hkey⟩, hnode, hocc, hrecorded⟩
  · exact ⟨old, mem_append_left _ hold, hnode, hocc, hrecorded⟩

variable {steps : List StepEntry} {attempt : Nat}

/-- **A record is kept by a ledger** that has its step only as completed. -/
theorem Recorded.persist {occurrence attempt : Nat} (h : Recorded rows nodeId occurrence)
    (hsteps : ∀ entry ∈ steps, entry.nodeId = nodeId → entry.occurrence = occurrence →
      entry.status = .completed ∧ entry.output.isSome) :
    Recorded (w.persistRuntimeSteps rows attempt steps) nodeId occurrence := by
  induction steps generalizing rows with
  | nil => exact h
  | cons entry steps ih =>
    refine ih (h.upsertStep ?_) (forall_mem_cons.mp hsteps).2
    intro hnode hocc _ _
    obtain ⟨hstatus, houtput⟩ := hsteps entry mem_cons_self hnode hocc
    refine ⟨StepRow.sameKey_iff.mpr ⟨rfl, rfl, rfl⟩, ?_⟩
    rw [StepRow.recorded, Process.row, hstatus, isSome_map, houtput]
    rfl

/-- **A true ledger keeps the record true.** -/
theorem Process.SoundRows.persist (h : w.SoundRows rows)
    (hsteps : ∀ entry ∈ steps, entry.status = .completed → ∃ output,
      entry.output = some output ∧ w.RecordedAs entry.nodeId entry.occurrence (w.stored output)) :
    w.SoundRows (w.persistRuntimeSteps rows attempt steps) := by
  induction steps generalizing rows with
  | nil => exact h
  | cons entry steps ih =>
    refine ih ?_ (forall_mem_cons.mp hsteps).2
    have hnew : (w.row attempt entry).status = .completed → ∀ output,
        (w.row attempt entry).output = some output →
          w.RecordedAs (w.row attempt entry).nodeId (w.row attempt entry).occurrence output := by
      intro hstatus output houtput
      obtain ⟨output', hentry, hrecorded⟩ := hsteps entry mem_cons_self hstatus
      rw [Process.row, hentry, map_some, some.injEq] at houtput
      exact houtput ▸ hrecorded
    intro row hrow
    rcases mem_upsertStep hrow with rfl | hold | ⟨_, _, _, rfl⟩
    · exact hnew
    · exact h row hold
    · exact hnew

/-! ## The invariant -/

structure Process.Sound (w : Process) (item : Item) : Prop where
  /-- The rows are a true record. -/
  rows : w.SoundRows item.rows
  /-- The item waits at calls that suspend. -/
  members : ∀ nodeId occurrence, (nodeId, occurrence) ∈ item.members → ∃ path call suspension,
    w.At path call ∧ call.nodeId = nodeId ∧ occurrenceOf path call.nodeId = occurrence ∧
      (unrecorded w.moduleExports w.fn call occurrence).1 = .error (.suspension suspension)
  /-- What it succeeded with is the result of the uninterrupted run. -/
  result : item.status = .succeeded → ∃ path result,
    w.DirectEnd path (.completed result) ∧ item.output = some (w.stored result)

theorem Process.Sound.new (w : Process) : w.Sound .new where
  rows := by intro row hrow; cases hrow
  members := by intro nodeId occurrence h; cases h
  result := nofun

/-- What is asked of an event: the steps of a run fit, and a cohort's outcome is the one the step
has, or a failure after which it is tried again. -/
def Process.Fits (w : Process) (item : Item) : Event → Prop
  | .execute _ fn _ _ => w.FitsRun fn
  | .lose _ => True
  | .settle nodeId occurrence attempt outcome =>
    outcome = w.batch nodeId occurrence ∨
      (∃ error, outcome = .failed error true) ∧ attempt < maxBatchItemAttempts ∧
        ¬ Recorded item.rows nodeId occurrence

/-- The conditions under which a recorded run follows the uninterrupted one. -/
structure Process.Careful (w : Process) : Prop where
  passes : w.PassesSuspensions
  stable : w.StableOutputs

variable {item : Item} {fn : String → Nat → Value → Except Fault Value}

/-- **A run from a sound item** follows the uninterrupted one. -/
theorem Process.Sound.run (hjson : StoresJson w.jsonb) (hw : w.Careful) (h : w.Sound item)
    (hfits : w.FitsRun fn) (budget : Nat) : w.Noted item.rows (w.run item.rows fn budget).2 ∧
      w.Followed item.rows fn budget (w.run item.rows fn budget).2.path
        (w.run item.rows fn budget).1 := by
  have hrun := (Process.Following.start w).runBody hjson hw.stable hw.passes hfits h.rows budget
    (Process.Noted.start w item.rows)
  have hzero : Recorder.start.path.length + budget = budget := Nat.zero_add budget
  rwa [hzero] at hrun

/-- The ledger of a receipt has no other steps than the run. -/
theorem receiptOf_steps {run : Terminal × Recorder} (h : w.Noted rows run.2) :
    ∀ entry ∈ (receiptOf run).steps, entry ∈ run.2.steps := by
  intro entry hentry
  rw [receiptOf] at hentry
  split at hentry
  · exact (h.events entry hentry).1
  · exact hentry

variable {suspension : Suspension} {call : Call}

theorem unrecorded_suspension {moduleExports : Exports}
    (h : (unrecorded moduleExports fn call occurrence).1 = .error (.suspension suspension)) :
    suspension.nodeId = call.nodeId ∧ suspension.occurrence = occurrence := by
  rcases unrecorded_cases moduleExports call occurrence with
    ⟨partition?, hsuspends⟩ | ⟨message, hthrows⟩ | hruns
  · rw [hsuspends] at h
    cases h
    exact ⟨rfl, rfl⟩
  · rw [hthrows] at h
    cases h
  · rw [hruns] at h
    split at h <;> cases h

/-- A call of the uninterrupted run never suspends it. -/
theorem Process.answer_ne_suspension {outcome : Outcome}
    (h : w.answer occurrence call = some outcome) (suspension : Suspension) :
    outcome ≠ .error (.suspension suspension) := by
  rintro rfl
  rw [Process.answer] at h
  split at h
  · cases hbatch : w.batch call.nodeId occurrence <;> rw [hbatch] at h <;> cases h
  · rename_i hno
    exact hno suspension (some.inj h)

variable {path : Steps}

theorem Process.direct_ne_suspension (h : w.Direct path) {outcome : Outcome}
    (hmem : outcome ∈ outcomes path) (suspension : Suspension) :
    outcome ≠ .error (.suspension suspension) := by
  induction h with
  | nil => cases hmem
  | snoc _ _ hanswer ih =>
    rw [outcomes, map_append] at hmem
    rcases mem_append.mp hmem with hold | hnew
    · exact ih hold
    · rw [mem_singleton.mp hnew]
      exact w.answer_ne_suspension hanswer suspension

theorem Process.not_directEnd_suspended : ¬ w.DirectEnd path (.suspended suspension) := by
  rintro ⟨hdirect, hend⟩
  rw [Body.next] at hend
  cases haction : w.body (outcomes path) with
  | calls call | returns value => simp [haction, Action.next] at hend
  | throws fault => cases fault <;> simp [haction, Action.next, Fault.terminal] at hend
  | rethrows index =>
    rw [haction, Action.next] at hend
    split at hend
    · rename_i thrown hthrown
      cases thrown with
      | suspension s =>
        exact w.direct_ne_suspension hdirect (mem_of_getElem? hthrown) s rfl
      | fault f => cases f <;> cases hend
    · cases hend

variable {budget : Nat}

/-- A suspension is of an unrecorded call that suspends. -/
theorem Process.Followed.of_suspended (h : w.Followed rows fn budget path (.suspended suspension)) :
    ∃ path call, w.At path call ∧ call.nodeId = suspension.nodeId ∧
      occurrenceOf path call.nodeId = suspension.occurrence ∧
      (unrecorded w.moduleExports w.fn call suspension.occurrence).1 =
        .error (.suspension suspension) ∧
      ¬ Recorded rows suspension.nodeId suspension.occurrence := by
  generalize hterminal : Terminal.suspended suspension = terminal at h
  cases h with
  | ended h => exact absurd (hterminal ▸ h) (Process.not_directEnd_suspended)
  | interrupted => cases hterminal
  | @suspended path call suspension' hat hsuspends hrecorded =>
    cases hterminal
    obtain ⟨hnode, hocc⟩ := unrecorded_suspension hsuspends
    rw [hnode, hocc]
    exact ⟨path, call, hat, rfl, rfl, hsuspends, hrecorded⟩
  | @failed _ _ fault _ _ hfails => cases fault <;> cases hterminal

variable {result : Json}

/-- A result is that of the uninterrupted run. -/
theorem Process.Followed.of_completed (h : w.Followed rows fn budget path (.completed result)) :
    w.DirectEnd path (.completed result) := by
  generalize hterminal : Terminal.completed result = terminal at h
  cases h with
  | ended h => exact h
  | interrupted => cases hterminal
  | suspended => cases hterminal
  | @failed _ _ fault _ _ hfails => cases fault <;> cases hterminal

/-! ## What the events do to it -/

theorem Process.Sound.complete {status : ItemStatus} {output : Option Json} {error : Option String}
    (h : w.Sound item) (hresult : status = .succeeded → ∃ path result,
      w.DirectEnd path (.completed result) ∧ output = some (w.stored result)) :
    w.Sound (item.complete status output error) := by
  rw [Item.complete]
  split
  · exact h
  · exact ⟨h.rows, h.members, hresult⟩

theorem complete_rows (item : Item) (status : ItemStatus) (output : Option Json)
    (error : Option String) : (item.complete status output error).rows = item.rows := by
  rw [Item.complete]
  split <;> rfl

/-- The item waits at the call that suspended its run. -/
theorem Process.Sound.park (h : w.Sound item)
    (hfollowed : w.Followed rows fn budget path (.suspended suspension)) :
    w.Sound (w.parkAtPhysicalStep item attempt suspension) where
  rows := by
    intro row hrow
    rcases mem_upsertStep hrow with rfl | hold | ⟨old, _, _, rfl⟩
    · exact nofun
    · exact h.rows row hold
    · exact nofun
  members := by
    intro nodeId occurrence hmem
    rcases mem_cons.mp hmem with hnew | hold
    · obtain ⟨rfl, rfl⟩ := Prod.mk.inj hnew
      obtain ⟨path, call, hat, hnode, hocc, hsuspends, -⟩ := hfollowed.of_suspended
      exact ⟨path, call, suspension, hat, hnode, hocc, hsuspends⟩
    · exact h.members nodeId occurrence hold
  result := nofun

section

variable (hjson : StoresJson w.jsonb) {outcome : BatchOutcome} {event : Event} {item' : Item}
include hjson

/-- **A run keeps the invariant.** -/
theorem Process.Sound.executeItem (hw : w.Careful) (h : w.Sound item)
    (hfits : w.FitsRun fn) (budget payloadAttempt : Nat) (lastTry : Bool) :
    w.Sound (w.executeItem item payloadAttempt (w.run item.rows fn budget) lastTry) := by
  obtain ⟨hnoted, hfollowed⟩ := h.run hjson hw hfits budget
  have hwritten : w.Sound { item with
      status := .running
      attempt := item.attemptOf payloadAttempt
      rows := w.persistRuntimeSteps item.rows (item.attemptOf payloadAttempt)
        (receiptOf (w.run item.rows fn budget)).steps } :=
    ⟨h.rows.persist fun entry hentry => hnoted.completed entry
      (receiptOf_steps hnoted entry hentry),
      h.members, nofun⟩
  rw [Process.executeItem]
  dsimp only [receiptOf] at hwritten ⊢
  cases hterminal : (w.run item.rows fn budget).1 with
  | completed result =>
    rw [hterminal] at hwritten hfollowed
    exact hwritten.complete fun _ => ⟨_, result, hfollowed.of_completed, rfl⟩
  | suspended suspension =>
    rw [hterminal] at hwritten hfollowed
    exact hwritten.park hfollowed
  | skipped reason =>
    rw [hterminal] at hwritten
    exact hwritten.complete nofun
  | rateLimited _ error | failed error | interrupted error =>
    rw [hterminal] at hwritten
    rw [Process.settleRun]
    split
    · exact hwritten.complete nofun
    · exact ⟨hwritten.rows, hwritten.members, nofun⟩

/-- **No run loses a record.** -/
theorem Process.Sound.executeItem_recorded (hw : w.Careful)
    (h : w.Sound item) (hfits : w.FitsRun fn) (budget payloadAttempt : Nat) (lastTry : Bool)
      (hrecorded : Recorded item.rows nodeId occurrence) :
    Recorded (w.executeItem item payloadAttempt (w.run item.rows fn budget) lastTry).rows
      nodeId occurrence := by
  obtain ⟨hnoted, hfollowed⟩ := h.run hjson hw hfits budget
  have hwritten : Recorded (w.persistRuntimeSteps item.rows (item.attemptOf payloadAttempt)
      (receiptOf (w.run item.rows fn budget)).steps) nodeId occurrence := by
    refine hrecorded.persist fun entry hentry hnode hocc => ?_
    have hmem := receiptOf_steps hnoted entry hentry
    by_cases hstatus : entry.status = .completed
    · obtain ⟨output, houtput, -⟩ := hnoted.completed entry hmem hstatus
      exact ⟨hstatus, by rw [houtput]; rfl⟩
    · exact absurd (hnode ▸ hocc ▸ hrecorded) (hnoted.incomplete entry hmem hstatus)
  rw [Process.executeItem]
  dsimp only [receiptOf] at hwritten ⊢
  cases hterminal : (w.run item.rows fn budget).1 with
  | completed result | skipped reason =>
    rw [hterminal] at hwritten
    exact hwritten
  | suspended suspension =>
    rw [hterminal] at hwritten hfollowed
    obtain ⟨-, -, -, -, -, -, hfresh⟩ := hfollowed.of_suspended
    refine hwritten.upsertStep fun (hnode : suspension.nodeId = nodeId)
      (hocc : suspension.occurrence = occurrence) => ?_
    exact absurd (hnode ▸ hocc ▸ hrecorded) hfresh
  | rateLimited _ error | failed error | interrupted error =>
    rw [hterminal] at hwritten
    rw [Process.settleRun]
    split
    · rw [complete_rows]
      exact hwritten
    · exact hwritten

omit hjson in
/-- Every call of the name suspends, and comes to the outcome of its batch step. -/
theorem Process.Sound.answer_member (h : w.Sound item)
    (hmem : (nodeId, occurrence) ∈ item.members) :
    ∃ path call, w.At path call ∧ call.nodeId = nodeId ∧
      occurrenceOf path call.nodeId = occurrence ∧
      w.answer occurrence call = w.resumed (w.batch nodeId occurrence) := by
  obtain ⟨path, call, suspension, hat, rfl, rfl, hsuspends⟩ := h.members nodeId occurrence hmem
  refine ⟨path, call, hat, rfl, rfl, ?_⟩
  simp only [Process.answer, hsuspends]

/-- The outcome of a batch step is a true record. -/
theorem Process.Sound.recordedAs_batch
    (h : w.Sound item) (hmem : (nodeId, occurrence) ∈ item.members)
    (hbatch : w.batch nodeId occurrence = .succeeded result) :
    w.RecordedAs nodeId occurrence (w.stored result) := by
  obtain ⟨path, call, hat, rfl, rfl, hanswer⟩ := h.answer_member hmem
  intro path' call' hat' hnode hocc
  obtain ⟨rfl, rfl⟩ := hat.unique hat' hnode.symm (by rw [hnode, hocc])
  rw [hbatch] at hanswer
  exact ⟨_, hanswer, by rw [toProtocolJson_toValue, w.stored_stored hjson],
    w.stable_stored hjson result⟩

omit hjson in
/-- A record of a call where the item waits is of a batch step that succeeded. -/
theorem Process.Sound.succeeded_of_recorded (h : w.Sound item)
    (hmem : (nodeId, occurrence) ∈ item.members) (hrecorded : Recorded item.rows nodeId occurrence)
    : ∃ result, w.batch nodeId occurrence = .succeeded result := by
  obtain ⟨path, call, hat, rfl, rfl, hanswer⟩ := h.answer_member hmem
  obtain ⟨row, hrow, hnode, hocc, hrow'⟩ := hrecorded
  rw [StepRow.recorded, Bool.and_eq_true, decide_eq_true_eq] at hrow'
  obtain ⟨output, houtput⟩ := isSome_iff_exists.mp hrow'.2
  obtain ⟨value, hvalue, -⟩ :=
    h.rows row hrow hrow'.1 output houtput path call hat hnode.symm (hnode ▸ hocc.symm)
  rw [hocc, hanswer] at hvalue
  cases hbatch : w.batch call.nodeId (occurrenceOf path call.nodeId) with
  | succeeded result => exact ⟨result, rfl⟩
  | skipped reason | failed error retryable =>
    rw [hbatch] at hvalue
    cases hvalue

/-- **The settlement of a cohort keeps the invariant.** -/
theorem Process.Sound.persistPhysicalOutcome {occurrence attempt : Nat} (h : w.Sound item)
    (hmem : (nodeId, occurrence) ∈ item.members)
    (hfits : w.Fits item (.settle nodeId occurrence attempt outcome)) :
    w.Sound (w.persistPhysicalOutcome item nodeId occurrence attempt outcome) := by
  have hrows : w.SoundRows (item.rows.map (w.settleRow nodeId occurrence attempt outcome)) := by
    intro row hrow
    obtain ⟨old, hold, rfl⟩ := mem_map.mp hrow
    unfold Process.settleRow
    split
    · rename_i hkey
      cases outcome with
      | succeeded result =>
        rintro - output ⟨⟩
        obtain ⟨rfl, rfl, -⟩ := hkey
        rcases hfits with hbatch | ⟨⟨_, hne⟩, -⟩
        · exact h.recordedAs_batch hjson hmem hbatch.symm
        · cases hne
      | skipped reason => exact nofun
      | failed error retryable => exact nofun
    · exact h.rows old hold
  have hwritten : w.Sound { item with
      members := item.members.erase (nodeId, occurrence)
      rows := item.rows.map (w.settleRow nodeId occurrence attempt outcome) } :=
    ⟨hrows, fun n o hn => h.members n o (mem_of_mem_erase hn), h.result⟩
  unfold Process.persistPhysicalOutcome
  cases outcome with
  | succeeded result => exact ⟨hwritten.rows, hwritten.members, nofun⟩
  | skipped reason => exact hwritten.complete nofun
  | failed error retryable =>
    dsimp only
    split
    · exact ⟨hwritten.rows, hwritten.members, nofun⟩
    · exact hwritten.complete nofun

omit hjson in
/-- **No settlement loses a record.** -/
theorem Process.Sound.persistPhysicalOutcome_recorded {nodeId' : String}
    {occurrence occurrence' attempt : Nat} (h : w.Sound item)
    (hmem : (nodeId, occurrence) ∈ item.members)
    (hfits : w.Fits item (.settle nodeId occurrence attempt outcome))
    (hrecorded : Recorded item.rows nodeId' occurrence') :
    Recorded (w.persistPhysicalOutcome item nodeId occurrence attempt outcome).rows
      nodeId' occurrence' := by
  have hrows : Recorded (item.rows.map (w.settleRow nodeId occurrence attempt outcome))
      nodeId' occurrence' := by
    obtain ⟨row, hrow, rfl, rfl, hrow'⟩ := hrecorded
    by_cases hkey : row.nodeId = nodeId ∧ row.occurrence = occurrence ∧ row.attempt = attempt
    · obtain ⟨hnode, hocc, -⟩ := id hkey
      have hhere : Recorded item.rows nodeId occurrence := ⟨row, hrow, hnode, hocc, hrow'⟩
      obtain ⟨result, hbatch⟩ := h.succeeded_of_recorded hmem hhere
      obtain rfl : outcome = .succeeded result := by
        rcases hfits with heq | ⟨-, -, hno⟩
        · exact heq.trans hbatch
        · exact absurd hhere hno
      refine ⟨_, mem_map.mpr ⟨row, hrow, rfl⟩, ?_⟩
      unfold Process.settleRow
      rw [if_pos hkey]
      exact ⟨rfl, rfl, rfl⟩
    · refine ⟨_, mem_map.mpr ⟨row, hrow, rfl⟩, ?_⟩
      unfold Process.settleRow
      rw [if_neg hkey]
      exact ⟨rfl, rfl, hrow'⟩
  unfold Process.persistPhysicalOutcome
  cases outcome with
  | succeeded result => exact hrows
  | skipped reason =>
    rw [complete_rows]
    exact hrows
  | failed error retryable =>
    dsimp only
    split
    · exact hrows
    · rw [complete_rows]
      exact hrows

theorem Process.Sound.after (hw : w.Careful) (h : w.Sound item) (hfits : w.Fits item event)
    (hstep : step w item event = some item') : w.Sound item' := by
  cases event with
  | execute payloadAttempt fn budget lastTry =>
    simp only [step, ite_none_left_eq_some, some.injEq] at hstep
    rw [← hstep.2]
    exact h.executeItem hjson hw hfits budget payloadAttempt lastTry
  | lose payloadAttempt =>
    simp only [step, ite_none_left_eq_some, some.injEq] at hstep
    rw [← hstep.2]
    exact ⟨h.rows, h.members, nofun⟩
  | settle nodeId occurrence attempt outcome =>
    simp only [step, ite_none_right_eq_some, some.injEq] at hstep
    rw [← hstep.2]
    exact h.persistPhysicalOutcome hjson hstep.1 hfits

theorem Process.Sound.after_recorded (hw : w.Careful) (h : w.Sound item) (hfits : w.Fits item event)
    (hstep : step w item event = some item')
    (hrecorded : Recorded item.rows nodeId occurrence) : Recorded item'.rows nodeId occurrence := by
  cases event with
  | execute payloadAttempt fn budget lastTry =>
    simp only [step, ite_none_left_eq_some, some.injEq] at hstep
    rw [← hstep.2]
    exact h.executeItem_recorded hjson hw hfits budget payloadAttempt lastTry hrecorded
  | lose payloadAttempt =>
    simp only [step, ite_none_left_eq_some, some.injEq] at hstep
    rw [← hstep.2]
    exact hrecorded
  | settle nodeId occurrence attempt outcome =>
    simp only [step, ite_none_right_eq_some, some.injEq] at hstep
    rw [← hstep.2]
    exact h.persistPhysicalOutcome_recorded hstep.1 hfits hrecorded

end

/-- The items that runs, deliveries and settlements lead to. -/
abbrev Process.Reached (w : Process) : Item → Prop := Reach (step w) w.Fits .new

theorem Process.Reached.sound (hjson : StoresJson w.jsonb) (hw : w.Careful) (h : w.Reached item) :
    w.Sound item :=
  h.invariant (Process.Sound.new w) fun _ _ _ hs => hs.after hjson hw

/-! ## Transparency -/

/-- The path ends as the uninterrupted run, in which every batch step is recorded. -/
def Process.AllRecorded (w : Process) (rows : List StepRow) : Prop :=
  ∀ path call suspension, w.At path call →
    (unrecorded w.moduleExports w.fn call (occurrenceOf path call.nodeId)).1 =
      .error (.suspension suspension) →
    Recorded rows call.nodeId (occurrenceOf path call.nodeId)

structure Process.Transparent (w : Process) : Prop where
  /-- Each run takes the path of the uninterrupted one, as far as it comes. -/
  follows : ∀ item, w.Reached item → ∀ fn budget, w.FitsRun fn →
    w.Followed item.rows fn budget (w.run item.rows fn budget).2.path
      (w.run item.rows fn budget).1
  /-- Once the batch steps are recorded, it returns the same result. -/
  same : ∀ item, w.Reached item → w.AllRecorded item.rows → ∀ path terminal budget,
    w.DirectEnd path terminal → path.length ≤ budget →
    (w.run item.rows w.fn budget).2.path = path ∧ (w.run item.rows w.fn budget).1 = terminal
  /-- What an item succeeded with is the result of the uninterrupted run. -/
  result : ∀ item, w.Reached item → item.status = .succeeded → ∃ path result,
    w.DirectEnd path (.completed result) ∧ item.output = some (w.stored result)
  /-- A recorded step is not run again. -/
  once : ∀ item, w.Reached item → ∀ fn budget, w.FitsRun fn →
    ∀ entry ∈ (w.run item.rows fn budget).2.events,
      ¬ Recorded item.rows entry.nodeId entry.occurrence
  /-- It stays recorded. -/
  kept : ∀ item, w.Reached item → ∀ event item', w.Fits item event →
    step w item event = some item' → ∀ nodeId occurrence,
      Recorded item.rows nodeId occurrence → Recorded item'.rows nodeId occurrence
  /-- A node and an occurrence name the same call in every run. -/
  named : ∀ item, w.Reached item → ∀ item', w.Reached item' → ∀ fn fn' budget budget',
    w.FitsRun fn → w.FitsRun fn' →
    ∀ taken ∈ (w.run item.rows fn budget).2.taken,
    ∀ taken' ∈ (w.run item'.rows fn' budget').2.taken,
      taken.call.nodeId = taken'.call.nodeId → taken.occurrence = taken'.occurrence →
      taken.call = taken'.call

variable {terminal : Terminal}

theorem Process.DirectEnd.stopped (h : w.DirectEnd path terminal) :
    w.next (outcomes path) ≠ some call := by
  rw [Process.next, h.2, Sum.getLeft?_inr]
  exact (some_ne_none call).symm

variable {terminal' : Terminal} {path' : Steps}

/-- The uninterrupted run has one end. -/
theorem Process.DirectEnd.unique (h : w.DirectEnd path terminal)
    (h' : w.DirectEnd path' terminal') : path = path' ∧ terminal = terminal' := by
  obtain rfl := h.1.eq_of_stopped h'.1 (fun _ hcall => absurd hcall h.stopped)
    (fun _ hcall => absurd hcall h'.stopped)
  exact ⟨rfl, Sum.inr.inj (h.2.symm.trans h'.2)⟩

/-- A run that is not held up is the uninterrupted run. -/
theorem Process.Followed.same (hrows : w.AllRecorded rows)
    (h : w.Followed rows w.fn budget path terminal) (hend : w.DirectEnd path' terminal')
    (hbudget : path'.length ≤ budget) : path = path' ∧ terminal = terminal' := by
  cases h with
  | ended hended => exact hended.unique hend
  | interrupted hat hlength =>
    have hpath := hend.1.prefix_of_stopped (fun _ hcall => absurd hcall hend.stopped) hat.1
    obtain rfl := hpath.eq_of_length_le (hlength ▸ hbudget)
    exact absurd hat.2 hend.stopped
  | suspended hat hsuspends hrecorded => exact absurd (hrows _ _ _ hat hsuspends) hrecorded
  | failed hat hne => exact absurd rfl hne

/-- **Replay is transparent** for a body that passes suspensions on and steps whose outputs are
the same after they were stored. -/
theorem replay_transparent (w : Process) (hjson : StoresJson w.jsonb) (hw : w.Careful) :
    w.Transparent where
  follows _ hr _ budget hfits := ((hr.sound hjson hw).run hjson hw hfits budget).2
  same _ hr hrows _ _ budget hend hbudget :=
    ((hr.sound hjson hw).run hjson hw w.fitsRun_self budget).2.same hrows hend hbudget
  result _ hr := (hr.sound hjson hw).result
  once _ hr _ budget hfits entry hentry :=
    (((hr.sound hjson hw).run hjson hw hfits budget).1.events entry hentry).2
  kept _ hr _ _ hfits hstep _ _ hrecorded :=
    (hr.sound hjson hw).after_recorded hjson hw hfits hstep hrecorded
  named item hr item' hr' fn fn' budget budget' hfits hfits' taken htaken taken' htaken'
      hnode hocc := by
    obtain ⟨path, hat, hname⟩ :=
      ((hr.sound hjson hw).run hjson hw hfits budget).1.named taken htaken
    obtain ⟨path', hat', hname'⟩ :=
      ((hr'.sound hjson hw).run hjson hw hfits' budget').1.named taken' htaken'
    exact (hat.unique hat' hnode (hname.symm.trans (hocc.trans hname'))).2

/-! ## Two steps -/

/-- A body that looks something up, has it reviewed and says whether it was found. -/
def lookupThenReview (found : Value) : Process where
  body
    | [] => .calls ⟨"lookup", "Look up", some "lookup", .null⟩
    | [.ok _] => .calls ⟨"review", "Review", some "review", .null⟩
    | [.ok .undefined, .ok _] => .returns (.string (Text.ofString "none"))
    | [.ok _, .ok _] => .returns (.string (Text.ofString "some"))
    | outcomes => .rethrows (outcomes.length - 1)
  moduleExports name := if name = "review" then .batchStep true none else .other
  fn _ _ _ := .ok found
  batch _ _ := .succeeded .null
  jsonb := id

/-- A body that goes on without a review where the review throws. -/
def reviewOrDefault : Process where
  body
    | [] => .calls ⟨"review", "Review", some "review", .null⟩
    | [.ok _] => .returns (.string (Text.ofString "reviewed"))
    | _ => .returns (.string (Text.ofString "unreviewed"))
  moduleExports name := if name = "review" then .batchStep true none else .other
  fn _ _ _ := .ok .null
  batch _ _ := .succeeded .null
  jsonb := id

theorem storesJson_id : StoresJson id := ⟨fun _ _ => rfl, fun _ h => h⟩

theorem lookupThenReview_fn {found : Value} {value : Value}
    (h : (unrecorded (lookupThenReview found).moduleExports (lookupThenReview found).fn call
      occurrence).1 = .ok value) : value = found := by
  rcases unrecorded_cases (lookupThenReview found).moduleExports call occurrence with
    ⟨partition?, hsuspends⟩ | ⟨message, hthrows⟩ | hruns
  · rw [hsuspends] at h
    cases h
  · rw [hthrows] at h
    cases h
  · rw [hruns] at h
    cases h
    rfl

theorem replay_transparent_found : (lookupThenReview (.bool true)).Transparent := by
  refine replay_transparent _ storesJson_id ⟨?_, ?_⟩
  · intro path call suspension _
    rcases path with _ | ⟨_, _ | ⟨_, _ | ⟨_, path⟩⟩⟩ <;> simp [lookupThenReview]
  · intro path call value _ hvalue
    rw [lookupThenReview_fn hvalue]
    rfl

/-- A run of the item, the outcome of its cohort, and a run again. -/
def reviewed (w : Process) : List Event :=
  [.execute 1 w.fn 5 false, .settle "review" 0 1 (.succeeded .null), .execute 1 w.fn 5 false]

theorem reached_of_exec {es : List Event} (hfits : ∀ event ∈ es, ∀ item, w.Fits item event)
    (h : Runs.exec (step w) .new es = some item) : w.Reached item :=
  Runs.reach_of_execAll hfits h

/-- An item that succeeds with another result than the uninterrupted run is not transparent. -/
theorem not_transparent (es : List Event) {output : Json}
    (hfits : ∀ event ∈ es, ∀ item, w.Fits item event) (h : Runs.exec (step w) .new es = some item)
    (hstatus : item.status = .succeeded) (houtput : item.output = some output)
    (hend : w.DirectEnd path (.completed result)) (hne : w.stored result ≠ output) :
    ¬ w.Transparent := by
  intro htransparent
  obtain ⟨path', result', hend', houtput'⟩ :=
    htransparent.result item (reached_of_exec hfits h) hstatus
  obtain ⟨-, heq⟩ := hend.unique hend'
  cases heq
  rw [houtput, some.injEq] at houtput'
  exact hne houtput'.symm

/-- What a lookup did not find is null when it is read back, and a suspension may be caught. -/
theorem undefined_and_caught :
    ¬ (lookupThenReview .undefined).Transparent ∧ ¬ reviewOrDefault.Transparent := by
  constructor
  · have hdirect := (show (lookupThenReview .undefined).Direct [] from .nil).play 5
    refine not_transparent (reviewed (lookupThenReview .undefined)) ?_ rfl rfl rfl
      ⟨hdirect, rfl⟩ ?_
    · intro event hevent item
      simp only [reviewed, mem_cons, not_mem_nil, or_false] at hevent
      rcases hevent with rfl | rfl | rfl
      · exact Process.fitsRun_self
      · exact .inl rfl
      · exact Process.fitsRun_self
    · intro h
      exact absurd (Json.string.inj h) (by decide)
  · have hdirect := (show reviewOrDefault.Direct [] from .nil).play 5
    refine not_transparent [.execute 1 reviewOrDefault.fn 5 false] ?_ rfl rfl rfl
      ⟨hdirect, rfl⟩ ?_
    · intro event hevent item
      rw [mem_singleton.mp hevent]
      exact Process.fitsRun_self
    · intro h
      exact absurd (Json.string.inj h) (by decide)

end Catamorphic.Batch
