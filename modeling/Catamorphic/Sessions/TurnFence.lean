import Catamorphic.Sessions.TurnEngine

/-!
# No stale holder writes

A guarded transaction checks the lease when it begins and not again, while a claim needs
the session's lock only. So a claim may commit while a transaction whose check passed waits
for that lock, and the transaction then commits without the lease. Where no claim does, the
lease is a fence: every commit carries the row's token, and a runner's frames are ingested
once and in order.
-/

namespace Catamorphic.Sessions.TurnEngine

open Runs Lease List

/-- A run of a turn and its holders. -/
abbrev TurnRun (output : Process → List Frame)
    (ok : State Data Local Action → Event Action Act Outside → Prop) :
    State Data Local Action → Prop :=
  Reach (step (work output) leaseSeconds) ok { data := .queued }

/-- The frames of a process that were ingested, by index, in the order they were. -/
def Data.indexes (d : Data) (p : Process) : List Nat :=
  (d.ingested.filter (·.1 = p)).map Prod.snd

/-- The process an attempt's recorded runner is, and how far it was read. -/
def Data.position (d : Data) (i : Nat) : Option (Process × Nat) :=
  (d.runner i).map fun r => (r.process, r.cursor)

/-- What the cursors say of the frames ingested. -/
structure Read (d : Data) : Prop where
  /-- Processes recorded were started. -/
  started : ∀ i p c, d.position i = some (p, c) → p < d.processes
  /-- An attempt has its process alone. -/
  distinct : ∀ i j p c c', d.position i = some (p, c) → d.position j = some (p, c') → i = j
  /-- Up to a recorded cursor all frames were ingested, and no others. -/
  read : ∀ i p c, d.position i = some (p, c) → d.indexes p = List.range c
  /-- A process's frames were ingested once each and in order. -/
  once : ∀ p, ∃ n, d.indexes p = List.range n
  unread : ∀ p, d.processes ≤ p → d.indexes p = []

/-- A process that is recorded nowhere. -/
structure Unused (d : Data) (p : Process) : Prop where
  started : p < d.processes
  indexes : d.indexes p = []
  position : ∀ i c, d.position i ≠ some (p, c)

/-- The memory of the turn's holder, against the cursors. -/
def InStep (m : Local) (d : Data) : Prop :=
  match m with
  | .launched _ p => Unused d p
  | .pump w => d.position w.attempt = some (w.process, w.cursor)
  | _ => True

/-! ## Positions -/

theorem runner_setAttempt (d : Data) (i j : Nat) (f : Attempt → Attempt) :
    (d.setAttempt i f).runner j =
      if j = i then d.attempts[i]?.bind (fun a => (f a).runner) else d.runner j := by
  unfold Data.runner Data.setAttempt
  rw [List.getElem?_modify]
  by_cases hji : j = i
  · subst hji
    cases d.attempts[j]? <;> simp
  · rw [if_neg hji]
    simp [Ne.symm hji]

variable {d : Data} {i : Nat} {f : Attempt → Attempt}

/-- A change that leaves the runner alone. -/
theorem runner_setAttempt_same (hf : ∀ a, (f a).runner = a.runner) (j : Nat) :
    (d.setAttempt i f).runner j = d.runner j := by
  rw [runner_setAttempt]
  split
  · rename_i hji
    subst hji
    simp only [hf]
    rfl
  · rfl

theorem runner_setRunner (d : Data) (i j : Nat) (f : Option RunnerState → Option RunnerState) :
    (d.setRunner i f).runner j =
      if j = i then d.attempts[i]?.bind (fun a => f a.runner) else d.runner j :=
  runner_setAttempt d i j _

theorem finish_runner (a : Attempt) (status : AttemptStatus) :
    (a.finish status).runner = a.runner := by
  unfold Attempt.finish
  split <;> rfl

/-- A new attempt has no runner. -/
theorem runner_append (d : Data) (s : AttemptStatus) (t : Option Nat) (j : Nat) :
    ({ d with attempts := d.attempts ++ [⟨s, t, none⟩] } : Data).runner j = d.runner j := by
  unfold Data.runner
  rw [List.getElem?_append]
  split
  · rfl
  · rename_i hlt
    rw [List.getElem?_eq_none (l := d.attempts) (by omega)]
    cases h : [(⟨s, t, none⟩ : Attempt)][j - d.attempts.length]? with
    | none => rfl
    | some a =>
      rw [mem_singleton.mp (mem_of_getElem? h)]
      rfl

/-- A runner changed where it was recorded, and its process and cursor were not. -/
theorem position_setRunner_same {f : Option RunnerState → Option RunnerState}
    (hf : (f (d.runner i)).map (fun r => (r.process, r.cursor)) = d.position i) (j : Nat) :
    (d.setRunner i f).position j = d.position j := by
  unfold Data.position
  rw [runner_setRunner]
  split
  · rename_i hji
    subst hji
    unfold Data.position Data.runner at hf
    unfold Data.runner
    cases ha : d.attempts[j]? with
    | none => rfl
    | some a =>
      rw [ha] at hf
      exact hf
  · rfl

theorem exists_of_position {pc : Process × Nat} (h : d.position i = some pc) :
    ∃ a r, d.attempts[i]? = some a ∧ a.runner = some r ∧ (r.process, r.cursor) = pc := by
  unfold Data.position Data.runner at h
  cases ha : d.attempts[i]? with
  | none =>
    rw [ha] at h
    cases h
  | some a =>
    rw [ha] at h
    obtain ⟨r, hr, hpc⟩ := Option.map_eq_some_iff.mp h
    exact ⟨a, r, rfl, hr, hpc⟩

/-! ## Storing entries moves no cursor -/

theorem foldl_store (q : List Append) (p thread : Nat) (d : Data) :
    (q.foldl (fun d q => d.store p thread q) d).attempts = d.attempts ∧
      (q.foldl (fun d q => d.store p thread q) d).ingested = d.ingested ∧
      (q.foldl (fun d q => d.store p thread q) d).processes = d.processes := by
  induction q generalizing d with
  | nil => exact ⟨rfl, rfl, rfl⟩
  | cons q qs ih => exact ih (d.store p thread q)

theorem answerAppend_position (w : Attached) (q : Append) (d : Data) (i : Nat) :
    (answerAppend w q d).position i = d.position i := by
  unfold answerAppend
  split
  · rfl
  · rw [position_setRunner_same]
    · rfl
    · show ((d.runner w.attempt).map _).map _ = _
      rw [Option.map_map]
      rfl

theorem answerAppend_ingested (w : Attached) (q : Append) (d : Data) :
    (answerAppend w q d).ingested = d.ingested := by
  unfold answerAppend
  split <;> rfl

theorem answerAppend_processes (w : Attached) (q : Append) (d : Data) :
    (answerAppend w q d).processes = d.processes := by
  unfold answerAppend
  split <;> rfl

/-! ## What keeps the cursors -/

/-- The same frames, processes and positions. -/
structure Still (d d' : Data) : Prop where
  position : ∀ i, d'.position i = d.position i
  ingested : d'.ingested = d.ingested
  processes : d'.processes = d.processes

variable {d' : Data}

theorem Still.indexes (h : Still d d') (p : Process) : d'.indexes p = d.indexes p := by
  unfold Data.indexes
  rw [h.ingested]

theorem Still.read (h : Still d d') (hr : Read d) : Read d' := by
  refine ⟨?_, ?_, ?_, ?_, ?_⟩
  · intro i p c
    rw [h.position, h.processes]
    exact hr.started i p c
  · intro i j p c c'
    rw [h.position, h.position]
    exact hr.distinct i j p c c'
  · intro i p c
    rw [h.position, h.indexes]
    exact hr.read i p c
  · intro p
    rw [h.indexes]
    exact hr.once p
  · intro p
    rw [h.processes, h.indexes]
    exact hr.unread p

variable {m : Local}

theorem Still.inStep (h : Still d d') (hm : InStep m d) : InStep m d' := by
  cases m with
  | launched i p =>
    exact ⟨by rw [h.processes]; exact hm.started, by rw [h.indexes]; exact hm.indexes,
      fun j c => by rw [h.position]; exact hm.position j c⟩
  | pump w => exact (h.position w.attempt).trans hm
  | start | ready _ _ | drain _ _ _ | finished => trivial

theorem still_runner (h : ∀ i, d'.runner i = d.runner i) (hi : d'.ingested = d.ingested)
    (hp : d'.processes = d.processes) : Still d d' :=
  ⟨fun i => by unfold Data.position; rw [h i], hi, hp⟩

theorem still_turn (d : Data) (turn : TurnStatus) : Still d { d with turn } :=
  ⟨fun _ => rfl, rfl, rfl⟩

theorem still_sent (d : Data) (sent : List (Process × CallId)) : Still d { d with sent } :=
  ⟨fun _ => rfl, rfl, rfl⟩

/-- A change of the turn's status and of what an attempt has beside its runner. -/
theorem still_setAttempt (d : Data) (turn : TurnStatus) (hf : ∀ a, (f a).runner = a.runner) :
    Still d ({ d with turn }.setAttempt i f) :=
  still_runner (runner_setAttempt_same (d := { d with turn }) hf) rfl rfl

theorem still_answerAppend (w : Attached) (q : Append) (d : Data) : Still d (answerAppend w q d) :=
  ⟨answerAppend_position w q d, answerAppend_ingested w q d, answerAppend_processes w q d⟩

theorem still_markEnded (d : Data) (j : Nat) :
    Still d (d.setRunner j (·.map fun r => { r with ended := true })) := by
  refine ⟨position_setRunner_same ?_, rfl, rfl⟩
  show ((d.runner j).map _).map _ = _
  rw [Option.map_map]
  rfl

variable {w : Attached}

/-- Saving the runner a holder in step has writes the process and the cursor recorded. -/
theorem still_saveRunner (h : InStep (.pump w) d) :
    Still d (d.setRunner w.attempt fun r => some (runnerWrite r w.process w.cursor [] [])) := by
  refine ⟨position_setRunner_same ?_, rfl, rfl⟩
  rw [show d.position w.attempt = some (w.process, w.cursor) from h]
  rfl

/-! ## The steps that move a cursor -/

/-- A process recorded nowhere is recorded, unread. -/
theorem read_launch {p : Process} {a : Attempt} (h : Read d) (hu : Unused d p)
    (ha : d.attempts[i]? = some a) : Read ({ d with turn := .working }.setAttempt i fun a =>
        { a with status := .running, runner := some ⟨p, 0, [], [], false⟩ }) ∧
      ({ d with turn := .working }.setAttempt i fun a =>
        { a with status := .running, runner := some ⟨p, 0, [], [], false⟩ }).position i =
          some (p, 0) := by
  have hpos : ∀ j, ({ d with turn := .working }.setAttempt i fun a =>
      { a with status := .running, runner := some ⟨p, 0, [], [], false⟩ }).position j =
      if j = i then some (p, 0) else d.position j := by
    intro j
    unfold Data.position
    rw [runner_setAttempt, ha]
    split <;> rfl
  refine ⟨⟨?_, ?_, ?_, h.once, h.unread⟩, by rw [hpos, if_pos rfl]⟩
  · intro j q c hj
    rw [hpos] at hj
    split at hj
    · cases hj
      exact hu.started
    · exact h.started j q c hj
  · intro j k q c c' hj hk
    rw [hpos] at hj hk
    split at hj <;> split at hk
    · rename_i hj' hk'
      rw [hj', hk']
    · cases hj
      exact absurd hk (hu.position k c')
    · cases hk
      exact absurd hj (hu.position j c)
    · exact h.distinct j k q c c' hj hk
  · intro j q c hj
    rw [hpos] at hj
    split at hj
    · cases hj
      exact hu.indexes
    · exact h.read j q c hj

/-- An attempt's runner is forgotten. -/
theorem read_prepareAgain (h : Read d) : Read ({ d with turn := .preparing }.setAttempt i fun a =>
      { a with status := .preparing, runner := none }) := by
  have hpos : ∀ j pc, ({ d with turn := .preparing }.setAttempt i fun a =>
      { a with status := .preparing, runner := none }).position j = some pc →
      d.position j = some pc := by
    intro j pc hj
    unfold Data.position at hj ⊢
    rw [runner_setAttempt] at hj
    split at hj
    · cases ha : d.attempts[i]? with
      | none =>
        rw [show ({ d with turn := .preparing } : Data).attempts[i]? = none from ha] at hj
        cases hj
      | some a =>
        rw [show ({ d with turn := .preparing } : Data).attempts[i]? = some a from ha] at hj
        cases hj
    · exact hj
  exact ⟨fun j p c hj => h.started j p c (hpos j _ hj),
    fun j k p c c' hj hk => h.distinct j k p c c' (hpos j _ hj) (hpos k _ hk),
    fun j p c hj => h.read j p c (hpos j _ hj), h.once, h.unread⟩

/-- The frames of one process go on where they were read up to. -/
theorem indexes_append (l : List (Process × Nat)) (p q : Process) (i n : Nat) :
    ((l ++ (List.range' i n).map (fun k => (p, k))).filter (·.1 = q)).map Prod.snd =
      (l.filter (·.1 = q)).map Prod.snd ++ if q = p then List.range' i n else [] := by
  rw [filter_append, map_append]
  by_cases hqp : q = p
  · subst hqp
    rw [if_pos rfl, filter_map]
    simp [Function.comp_def]
  · rw [if_neg hqp, filter_map]
    simp [Ne.symm hqp]

variable {output : Process → List Frame} {m' : Local} {a : Action}

/-- A holder in step applies the frames after those that were. -/
theorem read_applyFrames {upTo : Nat} (h : Read d) (hm : InStep (.pump w) d)
    (happly : applyFrames output upTo w d = some (d', m')) : Read d' ∧ InStep m' d' := by
  obtain ⟨⟨_, hle, _⟩, happly⟩ := Option.ite_none_right_eq_some.mp happly
  cases happly
  generalize Batch.frames w.calls (stretch output w.process w.cursor upTo) = b
  obtain ⟨hatt, hing, hproc⟩ := foldl_store b.appends w.process w.thread
    { d with ingested := d.ingested ++
        (List.range' w.cursor (upTo - w.cursor)).map (fun i => (w.process, i)) }
  generalize b.appends.foldl (fun d => d.store w.process w.thread)
    { d with ingested := d.ingested ++
        (List.range' w.cursor (upTo - w.cursor)).map (fun i => (w.process, i)) } =
          d₁ at hatt hing hproc ⊢
  have hrun : ∀ j, d₁.runner j = d.runner j := by
    intro j
    unfold Data.runner
    rw [hatt]
  have hpos₁ : d₁.position w.attempt = some (w.process, w.cursor) := by
    rw [← hm]
    unfold Data.position
    rw [hrun]
  have hpos : ∀ j, (d₁.setRunner w.attempt fun r => some ((runnerWrite r w.process upTo
      (b.added ++ (b.appends.map Append.callId).map (·, appliedAppend))
      (b.appends.map Append.callId)).forget b.delivered)).position j =
      if j = w.attempt then some (w.process, upTo) else d.position j := by
    intro j
    unfold Data.position
    obtain ⟨a, r, ha, _, _⟩ := exists_of_position hpos₁
    rw [runner_setRunner, ha, hrun]
    split <;> rfl
  have hidx : ∀ q, d₁.indexes q =
      d.indexes q ++ if q = w.process then List.range' w.cursor (upTo - w.cursor) else [] := by
    intro q
    unfold Data.indexes
    rw [hing]
    exact indexes_append _ _ _ _ _
  have hread : d₁.indexes w.process = List.range upTo := by
    rw [hidx, if_pos rfl, h.read _ _ _ hm, range_eq_range', range_eq_range',
      show List.range' w.cursor (upTo - w.cursor) = List.range' (0 + w.cursor) (upTo - w.cursor) by
        rw [Nat.zero_add], range'_append_1]
    congr 1
    omega
  have hother : ∀ q, q ≠ w.process → d₁.indexes q = d.indexes q := by
    intro q hq
    rw [hidx, if_neg hq, append_nil]
  have hstarted : w.process < d.processes := h.started _ _ _ hm
  refine ⟨⟨?_, ?_, ?_, ?_, ?_⟩, by rw [InStep, hpos, if_pos rfl]⟩
  · intro j q c hj
    rw [hpos] at hj
    show q < d₁.processes
    rw [hproc]
    split at hj
    · cases hj
      exact hstarted
    · exact h.started j q c hj
  · intro j k q c c' hj hk
    rw [hpos] at hj hk
    split at hj <;> split at hk
    · rename_i hj' hk'
      rw [hj', hk']
    · rename_i hj' _
      cases hj
      rw [hj']
      exact h.distinct _ _ _ _ _ hm hk
    · rename_i _ hk'
      cases hk
      rw [hk']
      exact h.distinct _ _ _ _ _ hj hm
    · exact h.distinct j k q c c' hj hk
  · intro j q c hj
    rw [hpos] at hj
    show d₁.indexes q = _
    split at hj
    · cases hj
      exact hread
    · rename_i hne
      rw [hother q, h.read j q c hj]
      intro hq
      rw [hq] at hj
      exact hne (h.distinct _ _ _ _ _ hj hm)
  · intro q
    show ∃ n, d₁.indexes q = _
    by_cases hq : q = w.process
    · rw [hq]
      exact ⟨upTo, hread⟩
    · rw [hother q hq]
      exact h.once q
  · intro q hq
    show d₁.indexes q = []
    have hq : d.processes ≤ q := Nat.le_trans (Nat.le_of_eq hproc.symm) hq
    have hne : q ≠ w.process := Ne.symm (Nat.ne_of_lt (Nat.lt_of_lt_of_le hstarted hq))
    rw [hother q hne]
    exact h.unread q hq

/-! ## Runs -/

theorem still_bindThread (d : Data) (i thread : Nat) :
    Still d (d.setAttempt i fun a => { a with thread := some thread }) :=
  still_setAttempt d d.turn (fun _ => rfl)

theorem still_restart (d : Data) (i : Nat) (status : AttemptStatus) :
    Still d ({ d with turn := .preparing }.setAttempt i fun a => { a with status }) :=
  still_setAttempt d .preparing (fun _ => rfl)

theorem read_commit (h : Read d) (hm : InStep m d) (hc : Committed output a m d d' m')
    : Read d' ∧ InStep m' d' := by
  cases hc with
  | begin hlast =>
    have hstill := still_runner (runner_append d .preparing none) rfl rfl
    exact ⟨hstill.read h, trivial⟩
  | bindThread => exact ⟨(still_bindThread d _ _).read h, trivial⟩
  | note => exact ⟨h, hm⟩
  | launch hattempt =>
    obtain ⟨hread, hpos⟩ := read_launch h hm hattempt
    exact ⟨hread, hpos⟩
  | prepareAgain => exact ⟨read_prepareAgain h, trivial⟩
  | applyFrames happly => exact read_applyFrames h hm happly
  | saveRunner =>
    have hstill := still_saveRunner hm
    exact ⟨hstill.read h, hstill.inStep hm⟩
  | restart hstatus htodo => exact ⟨(still_restart d _ _).read h, trivial⟩
  | finalizing htodo | finalizingReady => exact ⟨(still_turn d _).read h, trivial⟩
  | answerPump hnext =>
    refine ⟨(still_answerAppend _ _ d).read h, ?_⟩
    exact (still_answerAppend _ _ d).inStep (m := .pump (Attached.answered _ _)) hm
  | answerDrain hnext => exact ⟨(still_answerAppend _ _ d).read h, trivial⟩
  | markEndedDrain | markEnded => exact ⟨(still_markEnded d _).read h, trivial⟩
  | settle hturn => exact ⟨(still_setAttempt d _ (finish_runner · _)).read h, trivial⟩

/-- A runner found again is read on from its recorded cursor. -/
theorem position_attach {j : Nat} (h : d.attach j = some w) :
    d.position w.attempt = some (w.process, w.cursor) := by
  unfold Data.attach at h
  split at h
  · rename_i ha
    cases h
    unfold Data.position Data.runner
    rw [ha]
    rfl
  · cases h

theorem read_act {b : Act} (h : Read d) (ha : Acted output b m d d' m') :
    Read d' ∧ (InStep m d → InStep m' d') ∧ ∀ m₂, InStep m₂ d → InStep m₂ d' := by
  cases ha with
  | loadTurn =>
    refine ⟨h, fun _ => ?_, fun _ hm => hm⟩
    split <;> trivial
  | startProcess =>
    have hnew : ∀ m₂, InStep m₂ d → InStep m₂ { d with processes := d.processes + 1 } := by
      intro m₂ hm
      cases m₂ with
      | launched i p => exact ⟨Nat.lt_succ_of_lt hm.started, hm.indexes, hm.position⟩
      | pump w => exact hm
      | start | ready _ _ | drain _ _ _ | finished => trivial
    refine ⟨⟨?_, h.distinct, h.read, h.once, ?_⟩, ?_, hnew⟩
    · exact fun i p c hi => Nat.lt_succ_of_lt (h.started i p c hi)
    · exact fun p hp => h.unread p (Nat.le_of_succ_le hp)
    · refine fun _ => ⟨Nat.lt_succ_self _, h.unread _ (Nat.le_refl _), fun i c hi => ?_⟩
      exact Nat.lt_irrefl _ (h.started i _ c hi)
  | reattach hattach => exact ⟨h, fun _ => position_attach hattach, fun _ hm => hm⟩
  | reattachEnded hattach | reattachSuperseded hattach | readOn htodo hfrom | passDrain hnext
  | leave => exact ⟨h, fun _ => trivial, fun _ hm => hm⟩
  | passPump hnext => exact ⟨h, fun hm => hm, fun _ hm => hm⟩
  | sendPump =>
    exact ⟨(still_sent d _).read h, fun hm => hm, fun _ => (still_sent d _).inStep⟩
  | sendDrain =>
    exact ⟨(still_sent d _).read h, fun _ => trivial, fun _ => (still_sent d _).inStep⟩

theorem inStep_undo (hm : InStep m d) : InStep (undo a m) d := by
  unfold undo
  split
  · exact hm
  · trivial
  · exact hm

/-- What the turn's transactions keep of the cursors. -/
theorem read_rules (output : Process → List Frame) :
    Rules (work output) Read (fun _ _ => True) InStep (fun _ _ => True) where
  fresh _ := ⟨trivial, trivial⟩
  claimed h _ := ⟨(still_turn _ _).read h, fun _ _ => trivial⟩
  commit h _ hm hc := by
    obtain ⟨hread, hstep⟩ := read_commit h hm (committed_of_commit output hc)
    exact ⟨hread, trivial, hstep, fun _ _ => trivial⟩
  undo := by
    intro a m d _ _ _ hm
    exact ⟨trivial, inStep_undo hm⟩
  act h _ ha := by
    obtain ⟨hread, hown, hothers⟩ := read_act h (acted_of_act output ha)
    exact ⟨hread, trivial, hown, fun m₂ => ⟨fun _ => trivial, hothers m₂⟩⟩
  outside := by
    intro c d d' h hout
    obtain ⟨_, hd⟩ := Option.ite_none_right_eq_some.mp hout
    cases hd
    have hstill := still_turn d .queued
    exact ⟨hstill.read h, fun m => ⟨fun _ => trivial, hstill.inStep⟩⟩

theorem read_queued : Read .queued := by
  refine ⟨?_, ?_, ?_, fun _ => ⟨0, rfl⟩, fun _ _ => rfl⟩
  · intro i p c h
    cases h
  · intro i j p c c' h
    cases h
  · intro i p c h
    cases h

/-- What the lease is for: commits are the holder's, and frames are ingested once. -/
structure FencedTurn (s : State Data Local Action) : Prop where
  /-- Every guarded transaction committed while the row carried its holder's token. -/
  commits : ∀ c ∈ s.commits, c.row = some c.token
  /-- No frame was ingested by two transactions, or twice by one. -/
  nodup : s.data.ingested.Nodup
  /-- Each process's frames were ingested from its first on, in order. -/
  inOrder : ∀ p, ∃ n, s.data.indexes p = List.range n

theorem nodup_of_indexes (h : ∀ p, ∃ n, d.indexes p = List.range n) : d.ingested.Nodup := by
  rw [nodup_iff_count]
  intro ⟨p, k⟩
  obtain ⟨n, hn⟩ := h p
  have hcount : (d.indexes p).count k ≤ 1 := by
    rw [hn]
    exact nodup_iff_count.mp nodup_range k
  refine Nat.le_trans ?_ hcount
  have hfilter : d.ingested.count (p, k) = (d.ingested.filter (·.1 = p)).count (p, k) :=
    (count_filter (by simp)).symm
  rw [hfilter]
  exact count_le_count_map (f := Prod.snd) (x := (p, k))

/--
**Where no claim commits while a checked transaction is open, no stale holder writes.**
-/
theorem fenced_without_overlap (output : Process → List Frame) (s : State Data Local Action)
    (hr : TurnRun output Exclusive s) : FencedTurn s := by
  have hkept : Kept Read (fun _ _ => True) InStep s := by
    refine kept_reachable (read_rules output) read_queued (hr.mono ?_)
    intro s e hex
    refine ⟨hex, ?_⟩
    cases e <;> first | trivial | exact fun _ _ _ _ => trivial
  exact ⟨(fenced_reachable hr).commits, nodup_of_indexes hkept.good.once, hkept.good.once⟩

/-- A turn is claimed, its attempt launched. -/
def launched : List (Event Action Act Outside) :=
  [.claimBegin 0, .claimLock 0, .claimTake 0, .act 0 .loadTurn, .check 0 .begin, .lock 0, .commit 0,
   .check 0 (.bindThread 0), .lock 0, .commit 0,
   .act 0 .startProcess, .check 0 .launch, .lock 0, .commit 0]

theorem fenced_without_overlap_settled :
    ∃ s, TurnRun (fun _ => [.event]) Exclusive s ∧ FencedTurn s ∧ s.data.indexes 0 = [0] := by
  have hrun : (execOk (step (work fun _ => [.event]) leaseSeconds) Exclusive { data := .queued }
      (launched ++ [.check 0 (.applyFrames 1), .lock 0, .commit 0, .check 0
        (.settle .settled .completed),
        .lock 0, .commit 0])).map (fun s => s.data.indexes 0) = some [0] := by
    decide +kernel
  obtain ⟨s, hs, hidx⟩ := Option.map_eq_some_iff.mp hrun
  have hr := reach_of_execOk hs
  exact ⟨s, hr, fenced_without_overlap _ s hr, hidx⟩

/--
A claim between a transaction's check and its commit. The first holder's transaction passed
its check a second before its lease lapsed and waits for the session's lock; the second
holder claims the turn and finds the runner where it was recorded; then both apply the same
frame.
-/
theorem stale_holder_applies_frames :
    ∃ s, TurnRun (fun _ => [.event]) anyEvent s ∧ s.commits.contains ⟨0, some 1⟩ ∧
      s.data.ingested = [(0, 0), (0, 0)] ∧ ¬ FencedTurn s := by
  have hrun : (exec (step (work fun _ => [.event]) leaseSeconds) { data := .queued }
      (launched ++ [.tick 59, .check 0 (.applyFrames 1), .tick 1,
         .claimBegin 1, .claimLock 1, .claimTake 1, .act 1 .loadTurn, .act 1 .reattach,
         .lock 0, .commit 0,
         .check 1 (.applyFrames 1), .lock 1, .commit 1])).map
      (fun s => (s.commits.contains ⟨0, some 1⟩, s.data.ingested)) =
        some (true, [(0, 0), (0, 0)]) := by
    decide +kernel
  obtain ⟨s, hs, heq⟩ := Option.map_eq_some_iff.mp hrun
  obtain ⟨hstale, htwice⟩ := Prod.mk.inj heq
  refine ⟨s, reach_of_exec hs, hstale, htwice, fun h => ?_⟩
  have hnodup := h.nodup
  rw [htwice] at hnodup
  exact absurd hnodup (by decide)

end Catamorphic.Sessions.TurnEngine
