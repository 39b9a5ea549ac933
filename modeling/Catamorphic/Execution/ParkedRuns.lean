import Catamorphic.Execution.ParkedJobs

/-!
# No lost wake of a parked job

A release shares the run's row while it looks at the run and writes the job, and a resume holds
the row from before it looks until its commit. So a release that saw the run paused commits
before the resume looks for jobs, or sees the run as the resume left it.
-/

namespace Catamorphic.Execution.Parking

open Runs RowLocks Jobs Function List Option
open Coordinator (RunStatus Phase)

variable {w w' : World} {t t' : TxnId} {txn txn' : Txn} {runId runId' : RunId} {jobId : JobId}
  {entry : Entry} {now : Nat} {entry' : Entry} {lease : Lease} {run : RunRow}

/-! ## What each transaction relies on -/

def World.OfRun (w : World) (jobId : JobId) (runId : RunId) : Prop :=
  ∃ entry, w.jobs.rows jobId = some entry ∧ entry.job.workflowRunId = runId

def World.Holds (w : World) (t : TxnId) (runId : RunId) : Prop :=
  ∃ row, w.runs.held runId = some (t, row)

def Due (entry : Entry) (now : Nat) : Prop := entry.job.availableAt ≤ now

/-- What a transaction knows at its stage. -/
def Txn.Knows (w : World) (t : TxnId) : Txn → Prop
  | .release jobId _ runId _ stage =>
    w.OfRun jobId runId ∧ match stage with
      | .begun => True
      | .checked immediate => t ∈ w.shared runId ∧ (w.isPaused runId = true ∨ immediate = true)
      | .dated availableAt =>
        t ∈ w.shared runId ∧ (w.isPaused runId = true ∨ availableAt ≤ w.now)
      | .written updated =>
        t ∈ w.shared runId ∧ (updated = true → ∃ row, w.jobs.held jobId = some (t, row))
  | .resumeOperator runId stage =>
    match stage with
      | .begun | .unavailable => True
      | .locked _ => w.Holds t runId
      | .dated _ now | .changed now => w.Holds t runId ∧ now ≤ w.now
      | .waking now left =>
        w.Holds t runId ∧ now ≤ w.now ∧ ∀ jobId, w.released jobId = some runId →
          jobId ∈ left ∨ ∃ entry, w.jobs.view t jobId = some entry ∧ Due entry now
  | .pauseOperator runId stage =>
    match stage with
      | .locked _ => w.Holds t runId
      | _ => True

/-- How a transaction leaves a run's row that it holds. -/
def Txn.LeavesRun (w : World) (runId : RunId) (row : Option RunRow) : Txn → Prop
  | .resumeOperator runId' (.locked _) | .resumeOperator runId' (.dated _ _)
  | .resumeOperator runId' .unavailable | .pauseOperator runId' (.locked _)
  | .pauseOperator runId' .unavailable => runId' = runId ∧ row = w.runs.rows runId
  | .resumeOperator runId' (.changed _) | .resumeOperator runId' (.waking _ _) => runId' = runId
  | .pauseOperator runId' .changed =>
    runId' = runId ∧ ∃ run, row = some run ∧ run.status = .paused
  | _ => False

/-- How it leaves a job's row that it holds. -/
def Txn.LeavesJob (w : World) (jobId : JobId) (row : Option Entry) : Txn → Prop
  | .release jobId' _ runId _ (.written true) =>
    jobId' = jobId ∧ ∃ entry, row = some entry ∧ entry.job.workflowRunId = runId ∧
      entry.job.status = .pending ∧ (w.isPaused runId = true ∨ Due entry w.now)
  | .resumeOperator runId (.waking now _) =>
    w.OfRun jobId runId ∧ ∃ entry, row = some entry ∧ entry.job.workflowRunId = runId ∧
      entry.job.status = .pending ∧ Due entry now
  | _ => False

structure TxnSound (w : World) (t : TxnId) (txn : Txn) : Prop where
  knows : txn.Knows w t
  run : ∀ runId row, w.runs.held runId = some (t, row) → txn.LeavesRun w runId row
  job : ∀ jobId row, w.jobs.held jobId = some (t, row) → txn.LeavesJob w jobId row

/-- A job that was released for a paused run is due, unless the run is paused still. -/
def World.Awaits (w : World) (jobId : JobId) (runId : RunId) : Prop :=
  ∃ entry, w.jobs.rows jobId = some entry ∧ entry.job.workflowRunId = runId ∧
    entry.job.status = .pending ∧ (w.isPaused runId = true ∨ Due entry w.now)

structure Sound (w : World) : Prop where
  /-- A run's row is not shared while it is held. -/
  exclusive : ∀ runId t row, w.runs.held runId = some (t, row) → w.shared runId = []
  runOwner : ∀ runId t row, w.runs.held runId = some (t, row) → ∃ txn, w.txns t = some txn
  jobOwner : ∀ jobId t row, w.jobs.held jobId = some (t, row) → ∃ txn, w.txns t = some txn
  txns : ∀ t txn, w.txns t = some txn → TxnSound w t txn
  awaits : ∀ jobId runId, w.released jobId = some runId → w.Awaits jobId runId
  ids : ∀ jobId entry, w.jobs.rows jobId = some entry → jobId ∈ w.jobIds

/-! ## Frames -/

/-- What the steps of others leave to a transaction. -/
structure Frame (w w' : World) (t : TxnId) : Prop where
  now : w.now ≤ w'.now
  runHeld : ∀ runId row, w'.runs.held runId = some (t, row) ↔ w.runs.held runId = some (t, row)
  runRow : ∀ runId, w.Holds t runId → w'.runs.rows runId = w.runs.rows runId
  shared : ∀ runId, t ∈ w.shared runId → t ∈ w'.shared runId
  paused : ∀ runId, t ∈ w.shared runId → w'.isPaused runId = w.isPaused runId
  jobHeld : ∀ jobId row, w'.jobs.held jobId = some (t, row) ↔ w.jobs.held jobId = some (t, row)
  ofRun : ∀ jobId runId, w.OfRun jobId runId → w'.OfRun jobId runId
  released : ∀ jobId runId, w.Holds t runId → w'.released jobId = some runId →
    w.released jobId = some runId ∧ ∀ entry, w.jobs.view t jobId = some entry →
      ∃ entry', w'.jobs.view t jobId = some entry' ∧
        entry'.job.availableAt ≤ entry.job.availableAt

theorem Due.earlier {now now' : Nat} (h : Due entry now)
    (hle : entry'.job.availableAt ≤ entry.job.availableAt) (hnow : now ≤ now') : Due entry' now' :=
  Nat.le_trans hle (Nat.le_trans h hnow)

theorem Frame.holds (f : Frame w w' t) : w'.Holds t runId ↔ w.Holds t runId :=
  exists_congr (f.runHeld runId)

theorem TxnSound.frame (h : TxnSound w t txn) (f : Frame w w' t) : TxnSound w' t txn := by
  have hnow := f.now
  refine ⟨?_, fun runId row hheld => ?_, fun jobId row hheld => ?_⟩
  · cases txn with
    | release jobId lease runId availableAt stage =>
      obtain ⟨hof, hstage⟩ := h.knows
      refine ⟨f.ofRun jobId runId hof, ?_⟩
      cases stage with
      | begun => trivial
      | checked immediate =>
        obtain ⟨hshared, hsaw⟩ := hstage
        exact ⟨f.shared runId hshared, by rwa [f.paused runId hshared]⟩
      | dated at' =>
        obtain ⟨hshared, hsaw⟩ := hstage
        refine ⟨f.shared runId hshared, ?_⟩
        rw [f.paused runId hshared]
        exact hsaw.imp_right fun hle => Nat.le_trans hle hnow
      | written updated =>
        obtain ⟨hshared, hheld⟩ := hstage
        refine ⟨f.shared runId hshared, fun hupdated => ?_⟩
        obtain ⟨row, hrow⟩ := hheld hupdated
        exact ⟨row, (f.jobHeld jobId row).mpr hrow⟩
    | resumeOperator runId stage =>
      have hknows := h.knows
      cases stage with
      | begun => trivial
      | unavailable => trivial
      | locked previous => exact f.holds.mpr hknows
      | dated previous now | changed now =>
        exact ⟨f.holds.mpr hknows.1, Nat.le_trans hknows.2 hnow⟩
      | waking now left =>
        obtain ⟨hholds, hle, hjobs⟩ := hknows
        refine ⟨f.holds.mpr hholds, Nat.le_trans hle hnow, fun jobId hreleased => ?_⟩
        obtain ⟨hbefore, hview⟩ := f.released jobId runId hholds hreleased
        rcases hjobs jobId hbefore with hleft | ⟨entry, hentry, hdue⟩
        · exact .inl hleft
        · obtain ⟨entry', hentry', hearlier⟩ := hview entry hentry
          exact .inr ⟨entry', hentry', hdue.earlier hearlier (Nat.le_refl _)⟩
    | pauseOperator runId stage =>
      have hknows := h.knows
      cases stage with
      | locked run => exact f.holds.mpr hknows
      | _ => trivial
  · have hbefore := (f.runHeld runId row).mp hheld
    have hrow := f.runRow runId ⟨row, hbefore⟩
    have hleaves := h.run runId row hbefore
    cases txn with
    | release jobId lease runId availableAt stage => exact hleaves
    | resumeOperator runId stage | pauseOperator runId stage =>
      cases stage <;> simp only [Txn.LeavesRun, hrow] at hleaves ⊢ <;> exact hleaves
  · have hleaves := h.job jobId row ((f.jobHeld jobId row).mp hheld)
    cases txn with
    | release jobId' lease runId availableAt stage =>
      have hknows := h.knows
      cases stage with
      | written updated =>
        cases updated with
        | false => exact hleaves
        | true =>
          obtain ⟨hid, entry, hrow, hof, hpending, hdue⟩ := hleaves
          refine ⟨hid, entry, hrow, hof, hpending, ?_⟩
          rw [f.paused runId hknows.2.1]
          exact hdue.imp_right fun hdue => hdue.earlier (Nat.le_refl _) hnow
      | _ => exact hleaves
    | resumeOperator runId stage =>
      cases stage with
      | waking now left => exact ⟨f.ofRun jobId runId hleaves.1, hleaves.2⟩
      | _ => exact hleaves
    | pauseOperator runId stage => exact hleaves

/-! ## One statement of a transaction -/

/-- A statement that does not end its transaction: what is committed stays, and so do the rows
that others hold or share. -/
structure Moved (w : World) (t : TxnId) (txn' : Txn) (w' : World) : Prop where
  now : w'.now = w.now
  released : w'.released = w.released
  jobIds : w'.jobIds = w.jobIds
  runRows : w'.runs.rows = w.runs.rows
  jobRows : w'.jobs.rows = w.jobs.rows
  txns : w'.txns = update w.txns t (some txn')
  shared : ∀ runId t', t' ∈ w.shared runId → t' ∈ w'.shared runId
  runHeld : ∀ runId t' row, t' ≠ t →
    (w'.runs.held runId = some (t', row) ↔ w.runs.held runId = some (t', row))
  jobHeld : ∀ jobId t' row, t' ≠ t →
    (w'.jobs.held jobId = some (t', row) ↔ w.jobs.held jobId = some (t', row))
  exclusive : ∀ runId row, w'.runs.held runId = some (t, row) → w'.shared runId = []
  unshared : ∀ runId t' row, t' ≠ t → w.runs.held runId = some (t', row) →
    w'.shared runId = w.shared runId

theorem Moved.isPaused (m : Moved w t txn' w') : w'.isPaused runId = w.isPaused runId := by
  rw [World.isPaused, World.isPaused, m.runRows]

theorem Moved.ofRun (m : Moved w t txn' w') : w'.OfRun jobId runId ↔ w.OfRun jobId runId := by
  rw [World.OfRun, World.OfRun, m.jobRows]

theorem view_eq {κ ρ : Type} {s s' : Store κ ρ TxnId} {k : κ} (hrows : s'.rows k = s.rows k)
    (hheld : ∀ row, s'.held k = some (t, row) ↔ s.held k = some (t, row)) :
    s'.view t k = s.view t k := by
  by_cases hmine : ∃ row, s.held k = some (t, row)
  · obtain ⟨row, hrow⟩ := hmine
    rw [view_held hrow, view_held ((hheld row).mpr hrow)]
  · have hnone : ∀ row, s.held k ≠ some (t, row) := fun row hrow => hmine ⟨row, hrow⟩
    rw [view_of_not_held hnone, view_of_not_held fun row hrow => hnone row ((hheld row).mp hrow),
      hrows]

theorem Moved.frame (m : Moved w t txn' w') (hne : t' ≠ t) : Frame w w' t' where
  now := Nat.le_of_eq m.now.symm
  runHeld := fun runId row => m.runHeld runId t' row hne
  runRow := fun runId _ => by rw [m.runRows]
  shared := fun runId => m.shared runId t'
  paused := fun _ _ => m.isPaused
  jobHeld := fun jobId row => m.jobHeld jobId t' row hne
  ofRun := fun _ _ => m.ofRun.mpr
  released := fun jobId runId _ hreleased => by
    rw [m.released] at hreleased
    refine ⟨hreleased, fun entry hview => ⟨entry, ?_, Nat.le_refl _⟩⟩
    rwa [view_eq (by rw [m.jobRows]) fun row => m.jobHeld jobId t' row hne]

theorem Sound.moved (h : Sound w) (m : Moved w t txn' w') (hown : TxnSound w' t txn') :
    Sound w' := by
  have htxn : ∀ t', t' ≠ t → w'.txns t' = w.txns t' := fun t' hne => by
    rw [m.txns, update_of_ne hne]
  refine ⟨fun runId t' row hheld => ?_, fun runId t' row hheld => ?_,
    fun jobId t' row hheld => ?_, fun t' txn ht => ?_, fun jobId runId hreleased => ?_,
    fun jobId entry hrow => ?_⟩
  · by_cases heq : t' = t
    · subst heq
      exact m.exclusive runId row hheld
    · have hbefore := (m.runHeld runId t' row heq).mp hheld
      rw [m.unshared runId t' row heq hbefore]
      exact h.exclusive runId t' row hbefore
  · by_cases heq : t' = t
    · exact ⟨txn', by rw [m.txns, heq, update_self]⟩
    · rw [htxn t' heq]
      exact h.runOwner runId t' row ((m.runHeld runId t' row heq).mp hheld)
  · by_cases heq : t' = t
    · exact ⟨txn', by rw [m.txns, heq, update_self]⟩
    · rw [htxn t' heq]
      exact h.jobOwner jobId t' row ((m.jobHeld jobId t' row heq).mp hheld)
  · by_cases heq : t' = t
    · subst heq
      rw [m.txns, update_self] at ht
      rwa [← some.inj ht]
    · rw [htxn t' heq] at ht
      exact (h.txns t' txn ht).frame (m.frame heq)
  · rw [m.released] at hreleased
    obtain ⟨entry, hrow, hof, hpending, hdue⟩ := h.awaits jobId runId hreleased
    exact ⟨entry, by rw [m.jobRows, hrow], hof, hpending, by rwa [m.isPaused, m.now]⟩
  · rw [m.jobRows] at hrow
    rw [m.jobIds]
    exact h.ids jobId entry hrow

/-- Only the transaction's stage changes. -/
theorem moved_setTxn (h : Sound w) : Moved w t txn' (w.setTxn t txn') where
  now := rfl
  released := rfl
  jobIds := rfl
  runRows := rfl
  jobRows := rfl
  txns := rfl
  shared := fun _ _ => id
  runHeld := fun _ _ _ _ => Iff.rfl
  jobHeld := fun _ _ _ _ => Iff.rfl
  exclusive := fun runId => h.exclusive runId t
  unshared := fun _ _ _ _ _ => rfl

theorem hold_held_iff {κ ρ : Type} [DecidableEq κ] {s : Store κ ρ TxnId} {k k' : κ}
    {row row' : Option ρ} (hfree : s.free t k = true) (hne : t' ≠ t) :
    (s.hold t k row).held k' = some (t', row') ↔ s.held k' = some (t', row') := by
  by_cases hkey : k' = k
  · subst hkey
    rw [hold_held_self]
    refine ⟨fun heq => ?_, fun heq => absurd (eq_of_free hfree heq) hne⟩
    exact absurd (congrArg Prod.fst (some.inj heq)).symm hne
  · rw [hold_held_of_ne hkey]

/-- The transaction takes a run's row that nobody shares. -/
theorem moved_holdRun (h : Sound w) (hfree : w.runs.free t runId = true)
    (hshared : w.shared runId = []) (row : Option RunRow) :
    Moved w t txn' ({ w with runs := w.runs.hold t runId row }.setTxn t txn') where
  now := rfl
  released := rfl
  jobIds := rfl
  runRows := rfl
  jobRows := rfl
  txns := rfl
  shared := fun _ _ => id
  runHeld := fun _ _ _ => hold_held_iff hfree
  jobHeld := fun _ _ _ _ => Iff.rfl
  exclusive := fun runId' row' hheld => by
    rcases hold_some hheld with ⟨rfl, -, -⟩ | ⟨-, hheld⟩
    · exact hshared
    · exact h.exclusive runId' t row' hheld
  unshared := fun _ _ _ _ _ => rfl

/-- The transaction updates a job's row. -/
theorem moved_holdJob (h : Sound w) (hfree : w.jobs.free t jobId = true) (row : Option Entry) :
    Moved w t txn' ({ w with jobs := w.jobs.hold t jobId row }.setTxn t txn') where
  now := rfl
  released := rfl
  jobIds := rfl
  runRows := rfl
  jobRows := rfl
  txns := rfl
  shared := fun _ _ => id
  runHeld := fun _ _ _ _ => Iff.rfl
  jobHeld := fun _ _ _ => hold_held_iff hfree
  exclusive := fun runId => h.exclusive runId t
  unshared := fun _ _ _ _ _ => rfl

theorem share_some (h : w.share t runId = some w') : w.runs.free t runId = true ∧
    w' = { w with shared := update w.shared runId (t :: w.shared runId) } := by
  rw [World.share] at h
  by_cases hfree : w.runs.free t runId = true
  · rw [if_pos hfree] at h
    exact ⟨hfree, (some.inj h).symm⟩
  · rw [if_neg hfree] at h
    cases h

theorem free_of_held {κ ρ : Type} {s : Store κ ρ TxnId} {k : κ} {row : Option ρ}
    (h : s.held k = some (t, row)) : s.free t k = true := by
  rw [Store.free, h]
  exact decide_eq_true rfl

/-- The transaction shares a run's row that nobody holds. -/
theorem moved_share (hfree : w.runs.free t runId = true)
    (hnone : ∀ runId row, w.runs.held runId ≠ some (t, row)) : Moved w t txn' ({ w with
      shared := update w.shared runId (t :: w.shared runId) }.setTxn t txn') where
  now := rfl
  released := rfl
  jobIds := rfl
  runRows := rfl
  jobRows := rfl
  txns := rfl
  shared := fun runId' t' hmem => by
    show t' ∈ update w.shared runId (t :: w.shared runId) runId'
    by_cases heq : runId' = runId
    · rw [heq, update_self]
      exact mem_cons_of_mem t (heq ▸ hmem)
    · rwa [update_of_ne heq]
  runHeld := fun _ _ _ _ => Iff.rfl
  jobHeld := fun _ _ _ _ => Iff.rfl
  exclusive := fun runId' row hheld => absurd hheld (hnone runId' row)
  unshared := fun runId' t' row hne hheld => by
    show update w.shared runId (t :: w.shared runId) runId' = _
    have hother : runId' ≠ runId := by
      rintro rfl
      exact hne (eq_of_free hfree hheld)
    rw [update_of_ne hother]

theorem release_held (h : entry.job.heldBy now lease = true) (availableAt : Nat) :
    (entry.release now lease availableAt false).job.workflowRunId = entry.job.workflowRunId ∧
      (entry.release now lease availableAt false).job.status = .pending ∧
      (entry.release now lease availableAt false).job.availableAt = availableAt := by
  rw [Entry.release, if_pos h]
  exact ⟨rfl, rfl, rfl⟩

theorem Sound.release {availableAt : Nat} {stage : ReleaseStage} (h : Sound w)
    (ht : w.txns t = some (.release jobId lease runId availableAt stage))
    (hs : w.release t jobId lease runId availableAt stage = some w') : Sound w' := by
  have hown := h.txns t _ ht
  cases stage with
  | begun =>
    obtain ⟨w₁, hw₁, rfl⟩ := map_eq_some_iff.mp hs
    obtain ⟨hfree, rfl⟩ := share_some hw₁
    refine h.moved (moved_share hfree hown.run) ⟨⟨hown.knows.1, ?_, ?_⟩, hown.run, hown.job⟩
    · show t ∈ update w.shared runId (t :: w.shared runId) runId
      rw [update_self]
      exact mem_cons_self
    · show w.isPaused runId = true ∨ (!w.isPaused runId) = true
      cases w.isPaused runId with
      | false => exact .inr rfl
      | true => exact .inl rfl
  | checked immediate =>
    cases hs
    obtain ⟨hof, hshared, hsaw⟩ := hown.knows
    refine h.moved (moved_setTxn h) ⟨⟨hof, hshared, hsaw.imp_right fun himmediate => ?_⟩,
      hown.run, hown.job⟩
    rw [if_pos himmediate]
    exact Nat.le_refl _
  | dated at' =>
    have hjob : ∀ jobId row, w.jobs.held jobId ≠ some (t, row) := hown.job
    obtain ⟨jobs, hjobs, rfl⟩ := map_eq_some_iff.mp hs
    obtain ⟨hof, hshared, hsaw⟩ := hown.knows
    have hknows : ((w.jobs.view t jobId).any fun entry : Entry =>
        entry.job.heldBy w.now lease) = true → ∃ row, jobs.held jobId = some (t, row) := by
      intro hany
      cases hview : w.jobs.view t jobId with
      | none =>
        rw [hview] at hany
        cases hany
      | some entry =>
        rw [hview] at hany
        exact ⟨_, update_held hjobs hview hany⟩
    rcases update_cases hjobs with rfl | ⟨entry, hview, hheldBy, hfree, rfl⟩
    · exact h.moved (moved_setTxn h) ⟨⟨hof, hshared, hknows⟩, hown.run,
        fun jobId row hheld => absurd hheld (hjob jobId row)⟩
    · have hupdated : ((w.jobs.view t jobId).any fun entry : Entry =>
          entry.job.heldBy w.now lease) = true := by
        rw [hview]
        exact hheldBy
      have hrow : w.jobs.rows jobId = some entry := by
        rw [← view_of_not_held (hjob jobId), hview]
      refine h.moved (moved_holdJob h hfree _) ⟨⟨hof, hshared, hknows⟩, hown.run,
        fun jobId' row hheld => ?_⟩
      rcases hold_some hheld with ⟨rfl, -, rfl⟩ | ⟨-, hheld⟩
      · obtain ⟨entry₀, hrow₀, hof₀⟩ := hof
        cases hrow.symm.trans hrow₀
        obtain ⟨hof', hpending, hat⟩ := release_held hheldBy at'
        rw [hupdated]
        refine ⟨rfl, _, rfl, hof'.trans hof₀, hpending, hsaw.imp_right fun hle => ?_⟩
        show _ ≤ _
        rw [hat]
        exact hle
      · exact absurd hheld (hjob jobId' row)
  | written updated => cases hs

theorem resumeStage_cases (run : RunRow) :
    (∃ previous, run.resumeStage = .locked previous) ∨ run.resumeStage = .unavailable := by
  unfold RunRow.resumeStage
  split
  · rename_i previous _
    split
    · exact .inl ⟨previous, rfl⟩
    · exact .inr rfl
  · exact .inr rfl

theorem lockable_iff : w.lockable t runId = true ↔
    w.runs.free t runId = true ∧ w.shared runId = [] := by
  rw [World.lockable, Bool.and_eq_true, List.isEmpty_iff]

theorem parkedRow_iff : parkedRow runId now entry = true ↔
    entry.job.workflowRunId = runId ∧ entry.job.status = .pending ∧
      now < entry.job.availableAt := by
  simp [parkedRow, and_assoc]

theorem makeAvailable_parked (h : parkedRow runId now entry = true) :
    entry.makeAvailable now = { entry with job := { entry.job with availableAt := now } } := by
  obtain ⟨-, hpending, hlt⟩ := parkedRow_iff.mp h
  exact if_pos ⟨hpending, hlt⟩

/-- A pending job of the run that a resume's last statement does not find is due. -/
theorem due_of_not_parked (hof : entry.job.workflowRunId = runId)
    (hpending : entry.job.status = .pending) (h : ¬parkedRow runId now entry = true) :
    Due entry now := by
  by_contra hlate
  exact h (parkedRow_iff.mpr ⟨hof, hpending, Nat.lt_of_not_le hlate⟩)

/-- A released job as a transaction sees it is a pending one of its run. -/
theorem Sound.viewed (h : Sound w) (hreleased : w.released jobId = some runId)
    (hmine : ∀ row, w.jobs.held jobId = some (t, row) → ∃ entry, row = some entry ∧
      entry.job.workflowRunId = runId ∧ entry.job.status = .pending) :
    ∃ entry, w.jobs.view t jobId = some entry ∧ entry.job.workflowRunId = runId ∧
      entry.job.status = .pending := by
  by_cases hheld : ∃ row, w.jobs.held jobId = some (t, row)
  · obtain ⟨row, hrow⟩ := hheld
    obtain ⟨entry, rfl, hentry⟩ := hmine row hrow
    exact ⟨entry, view_held hrow, hentry⟩
  · obtain ⟨entry, hrow, hof, hpending, -⟩ := h.awaits jobId runId hreleased
    refine ⟨entry, ?_, hof, hpending⟩
    rw [view_of_not_held fun row hrow => hheld ⟨row, hrow⟩, hrow]

/-- A transaction that holds nothing takes a run's row as it is. -/
theorem Sound.lockRun (h : Sound w) (hlock : w.lockable t runId = true)
    (hrun : ∀ runId row, w.runs.held runId ≠ some (t, row))
    (hjob : ∀ jobId row, w.jobs.held jobId ≠ some (t, row))
    (hknows : (w.runs.hold t runId (some run)).held runId = some (t, some run) →
      txn'.Knows ({ w with runs := w.runs.hold t runId (some run) }.setTxn t txn') t)
    (hleaves : txn'.LeavesRun ({ w with runs := w.runs.hold t runId (some run) }.setTxn t txn')
      runId (some run)) :
    Sound ({ w with runs := w.runs.hold t runId (some run) }.setTxn t txn') := by
  obtain ⟨hfree, hshared⟩ := lockable_iff.mp hlock
  refine h.moved (moved_holdRun h hfree hshared _) ⟨hknows hold_held_self,
    fun runId' row hheld => ?_, fun jobId row hheld => absurd hheld (hjob jobId row)⟩
  rcases hold_some hheld with ⟨rfl, -, rfl⟩ | ⟨-, hheld⟩
  · exact hleaves
  · exact absurd hheld (hrun runId' row)

theorem Sound.resumeOperator {stage : ResumeStage} (h : Sound w)
    (ht : w.txns t = some (.resumeOperator runId stage))
    (hs : w.resumeOperator t runId stage = some w') : Sound w' := by
  have hown := h.txns t _ ht
  cases stage with
  | begun =>
    rw [World.resumeOperator] at hs
    cases hrow : w.runs.rows runId with
    | none =>
      rw [hrow] at hs
      cases hs
      exact h.moved (moved_setTxn h)
        ⟨trivial, fun runId row hheld => absurd hheld (hown.run runId row), hown.job⟩
    | some run =>
      simp only [hrow] at hs
      by_cases hlock : w.lockable t runId = true
      · rw [if_pos hlock] at hs
        cases hs
        rcases resumeStage_cases run with ⟨previous, hstage⟩ | hstage
        · rw [hstage]
          exact h.lockRun hlock hown.run hown.job (fun hheld => ⟨_, hheld⟩) ⟨rfl, hrow.symm⟩
        · rw [hstage]
          exact h.lockRun hlock hown.run hown.job (fun _ => trivial) ⟨rfl, hrow.symm⟩
      · rw [if_neg hlock] at hs
        cases hs
  | locked previous =>
    cases hs
    exact h.moved (moved_setTxn h) ⟨⟨hown.knows, Nat.le_refl _⟩, hown.run, hown.job⟩
  | dated previous now =>
    rw [World.resumeOperator] at hs
    obtain ⟨⟨row, hheld⟩, hle⟩ := hown.knows
    cases hview : w.runs.view t runId with
    | none =>
      rw [hview] at hs
      cases hs
    | some run =>
      rw [hview] at hs
      cases hs
      refine h.moved (moved_holdRun h (free_of_held hheld) (h.exclusive runId t row hheld) _)
        ⟨⟨⟨_, hold_held_self⟩, hle⟩, fun runId' row' hheld' => ?_, hown.job⟩
      rcases hold_some hheld' with ⟨rfl, -, -⟩ | ⟨-, hheld'⟩
      · rfl
      · exact (hown.run runId' row' hheld').1
  | changed now =>
    cases hs
    obtain ⟨hholds, hle⟩ := hown.knows
    have hjob : ∀ jobId row, w.jobs.held jobId ≠ some (t, row) := hown.job
    refine h.moved (moved_setTxn h) ⟨⟨hholds, hle, fun jobId hreleased => ?_⟩, hown.run,
      fun jobId row hheld => absurd hheld (hjob jobId row)⟩
    obtain ⟨entry, hrow, hof, hpending, -⟩ := h.awaits jobId runId hreleased
    have hview : w.jobs.view t jobId = some entry := by rw [view_of_not_held (hjob jobId), hrow]
    by_cases hparked : parkedRow runId now entry = true
    · refine .inl (mem_filter.mpr ⟨h.ids jobId entry hrow, ?_⟩)
      rw [hview]
      exact hparked
    · exact .inr ⟨entry, hview, due_of_not_parked hof hpending hparked⟩
  | waking now left =>
    cases left with
    | nil => cases hs
    | cons jobId left =>
      obtain ⟨jobs, hjobs, rfl⟩ := map_eq_some_iff.mp hs
      obtain ⟨hholds, hle, hleft⟩ := hown.knows
      have hwoken : ∀ jobId', w.released jobId' = some runId → jobId' ∈ left ∨
          ∃ entry, jobs.view t jobId' = some entry ∧ Due entry now := by
        intro jobId' hreleased
        by_cases heq : jobId' = jobId
        · subst heq
          obtain ⟨entry, hview, hof, hpending⟩ := h.viewed (t := t) hreleased
            fun row hheld => by
              obtain ⟨⟨entry₀, hrow₀, hof₀⟩, entry, rfl, hof, hpending, -⟩ :=
                hown.job jobId' row hheld
              exact ⟨entry, rfl, hof, hpending⟩
          refine .inr ⟨_, update_view hjobs hview, ?_⟩
          by_cases hparked : parkedRow runId now entry = true
          · rw [if_pos hparked, makeAvailable_parked hparked]
            exact Nat.le_refl _
          · rw [if_neg hparked]
            exact due_of_not_parked hof hpending hparked
        · rcases hleft jobId' hreleased with hmem | ⟨entry, hview, hdue⟩
          · exact .inl ((mem_cons.mp hmem).resolve_left heq)
          · exact .inr ⟨entry, by rwa [update_view_of_ne hjobs heq], hdue⟩
      rcases update_cases hjobs with rfl | ⟨entry, hview, hparked, hfree, rfl⟩
      · exact h.moved (moved_setTxn h) ⟨⟨hholds, hle, hwoken⟩, hown.run, hown.job⟩
      · refine h.moved (moved_holdJob h hfree _) ⟨⟨hholds, hle, hwoken⟩, hown.run,
          fun jobId' row hheld => ?_⟩
        rcases hold_some hheld with ⟨rfl, -, rfl⟩ | ⟨-, hheld⟩
        · obtain ⟨hof, hpending, -⟩ := parkedRow_iff.mp hparked
          rw [makeAvailable_parked hparked]
          refine ⟨?_, _, rfl, hof, hpending, Nat.le_refl _⟩
          by_cases hmine : ∃ row, w.jobs.held jobId' = some (t, row)
          · obtain ⟨row, hrow⟩ := hmine
            exact (hown.job jobId' row hrow).1
          · have hrow : w.jobs.rows jobId' = some entry :=
              (view_of_not_held fun row hrow => hmine ⟨row, hrow⟩).symm.trans hview
            exact ⟨entry, hrow, hof⟩
        · exact hown.job jobId' row hheld
  | unavailable => cases hs

theorem Sound.pauseOperator {stage : PauseStage} (h : Sound w)
    (ht : w.txns t = some (.pauseOperator runId stage))
    (hs : w.pauseOperator t runId stage = some w') : Sound w' := by
  have hown := h.txns t _ ht
  cases stage with
  | begun =>
    rw [World.pauseOperator] at hs
    cases hrow : w.runs.rows runId with
    | none =>
      rw [hrow] at hs
      cases hs
      exact h.moved (moved_setTxn h)
        ⟨trivial, fun runId row hheld => absurd hheld (hown.run runId row), hown.job⟩
    | some run =>
      simp only [hrow] at hs
      by_cases hlock : w.lockable t runId = true
      · rw [if_pos hlock] at hs
        cases hs
        split
        · exact h.lockRun hlock hown.run hown.job (fun hheld => ⟨_, hheld⟩) ⟨rfl, hrow.symm⟩
        · exact h.lockRun hlock hown.run hown.job (fun _ => trivial) ⟨rfl, hrow.symm⟩
      · rw [if_neg hlock] at hs
        cases hs
  | locked run =>
    cases hs
    obtain ⟨row, hheld⟩ := hown.knows
    refine h.moved (moved_holdRun h (free_of_held hheld) (h.exclusive runId t row hheld) _)
      ⟨trivial, fun runId' row' hheld' => ?_, hown.job⟩
    rcases hold_some hheld' with ⟨rfl, -, rfl⟩ | ⟨hne, hheld'⟩
    · exact ⟨rfl, _, rfl, rfl⟩
    · exact absurd (hown.run runId' row' hheld').1.symm hne
  | changed => cases hs
  | unavailable => cases hs

/-! ## The end of a transaction -/

/-- A job's row that a transaction holds is a pending one of a run that it shares or holds. -/
theorem TxnSound.jobLeft {row : Option Entry} (h : TxnSound w t txn)
    (hheld : w.jobs.held jobId = some (t, row)) :
    ∃ entry runId, row = some entry ∧ entry.job.workflowRunId = runId ∧
      entry.job.status = .pending ∧ w.OfRun jobId runId ∧
      (t ∈ w.shared runId ∧ (w.isPaused runId = true ∨ Due entry w.now) ∨
        w.Holds t runId ∧ Due entry w.now) := by
  have hleaves := h.job jobId row hheld
  have hknows := h.knows
  cases txn with
  | release jobId' lease runId availableAt stage =>
    cases stage with
    | written updated =>
      cases updated with
      | false => exact hleaves.elim
      | true =>
        obtain ⟨rfl, entry, hrow, hof, hpending, hdue⟩ := hleaves
        exact ⟨entry, runId, hrow, hof, hpending, hknows.1, .inl ⟨hknows.2.1, hdue⟩⟩
    | _ => exact hleaves.elim
  | resumeOperator runId stage =>
    cases stage with
    | waking now left =>
      obtain ⟨hjob, entry, hrow, hof, hpending, hdue⟩ := hleaves
      exact ⟨entry, runId, hrow, hof, hpending, hjob,
        .inr ⟨hknows.1, Nat.le_trans hdue hknows.2.1⟩⟩
    | _ => exact hleaves.elim
  | pauseOperator runId stage => exact hleaves.elim

theorem ofRun_unique (h : w.OfRun jobId runId) (hrow : w.jobs.rows jobId = some entry) :
    entry.job.workflowRunId = runId := by
  obtain ⟨entry', hrow', hof⟩ := h
  rwa [some.inj (hrow.symm.trans hrow')]

/-- Two transactions do not hold a run's row, nor does one share what another holds. -/
theorem Sound.apart (h : Sound w) (hne : t' ≠ t) (hholds : w.Holds t' runId)
    (hother : t ∈ w.shared runId ∨ w.Holds t runId) : False := by
  obtain ⟨row, hrow⟩ := hholds
  rcases hother with hshared | ⟨row', hrow'⟩
  · rw [h.exclusive runId t' row hrow] at hshared
    cases hshared
  · exact hne (congrArg Prod.fst (some.inj (hrow.symm.trans hrow')))

theorem commit_isPaused (h : ¬w.Holds t runId) :
    (w.commit t txn).isPaused runId = w.isPaused runId := by
  have hview : w.runs.view t runId = w.runs.rows runId :=
    view_of_not_held fun row hrow => h ⟨row, hrow⟩
  rw [World.isPaused, World.isPaused, ← hview]
  rfl

theorem frame_rollback (hne : t' ≠ t) : Frame w (w.rollback t) t' where
  now := Nat.le_refl _
  runHeld := fun _ _ => ⟨fun hheld => (rollback_some hheld).2,
    fun hheld => rollback_held_other hheld hne⟩
  runRow := fun _ _ => rfl
  shared := fun _ hmem => mem_filter.mpr ⟨hmem, decide_eq_true hne⟩
  paused := fun _ _ => rfl
  jobHeld := fun _ _ => ⟨fun hheld => (rollback_some hheld).2,
    fun hheld => rollback_held_other hheld hne⟩
  ofRun := fun _ _ => id
  released := fun _ _ _ hreleased => ⟨hreleased, fun entry hview =>
    ⟨entry, (rollback_view hne).trans hview, Nat.le_refl _⟩⟩

theorem Sound.frame_commit (h : Sound w) (ht : w.txns t = some txn) (hne : t' ≠ t) :
    Frame w (w.commit t txn) t' where
  now := Nat.le_refl _
  runHeld := fun _ _ => ⟨fun hheld => (rollback_some hheld).2,
    fun hheld => rollback_held_other hheld hne⟩
  runRow := fun runId hholds => view_of_not_held fun row hrow =>
    h.apart hne hholds (.inr ⟨row, hrow⟩)
  shared := fun _ hmem => mem_filter.mpr ⟨hmem, decide_eq_true hne⟩
  paused := fun _ hmem => commit_isPaused fun hholds =>
    h.apart hne.symm hholds (.inl hmem)
  jobHeld := fun _ _ => ⟨fun hheld => (rollback_some hheld).2,
    fun hheld => rollback_held_other hheld hne⟩
  ofRun := fun jobId runId hof => by
    by_cases hmine : ∃ row, w.jobs.held jobId = some (t, row)
    · obtain ⟨row, hrow⟩ := hmine
      obtain ⟨entry, runId', rfl, hrun, -, hof', -⟩ := (h.txns t txn ht).jobLeft hrow
      obtain ⟨entry₀, hrow₀, hrun₀⟩ := hof
      exact ⟨entry, view_held hrow, (hrun.trans (ofRun_unique hof' hrow₀).symm).trans hrun₀⟩
    · obtain ⟨entry, hrow, hrun⟩ := hof
      exact ⟨entry, (view_of_not_held fun row hrow => hmine ⟨row, hrow⟩).trans hrow, hrun⟩
  released := fun jobId runId hholds hreleased => by
    -- A release of this run shares its row, so it cannot commit here.
    have hbefore : w.released jobId = some runId := by
      have hby : w.releasedBy txn jobId = some runId := hreleased
      unfold World.releasedBy at hby
      split at hby
      · rename_i jobId' lease runId' availableAt
        by_cases heq : jobId = jobId'
        · rw [heq, update_self] at hby
          cases hby
          exact (h.apart hne hholds (.inl (h.txns t _ ht).knows.2.1)).elim
        · rwa [update_of_ne heq] at hby
      · exact hby
    refine ⟨hbefore, fun entry hview => ⟨entry, ?_, Nat.le_refl _⟩⟩
    by_cases hheld : ∃ row, w.jobs.held jobId = some (t', row)
    · obtain ⟨row, hrow⟩ := hheld
      exact (commit_view_held hrow hne).trans ((view_held hrow).symm.trans hview)
    · have hnone : ∀ row, w.jobs.held jobId ≠ some (t', row) := fun row hrow => hheld ⟨row, hrow⟩
      have hmine : ∀ row, w.jobs.held jobId ≠ some (t, row) := by
        intro row hrow
        obtain ⟨entry', runId', -, -, -, hof, hlock⟩ := (h.txns t txn ht).jobLeft hrow
        obtain ⟨entry₀, hrow₀, hrun₀, -⟩ := h.awaits jobId runId hbefore
        obtain rfl : runId' = runId := (ofRun_unique hof hrow₀).symm.trans hrun₀
        exact h.apart hne hholds (hlock.imp And.left And.left)
      rw [show (w.commit t txn).jobs.view t' jobId = w.jobs.view t jobId from
        commit_view_other hnone, view_of_not_held hmine, ← view_of_not_held hnone, hview]

/-- Steps that leave every transaction that goes on what it relies on. -/
theorem Sound.framed (h : Sound w) (runHeld : ∀ runId t row, w'.runs.held runId = some (t, row) →
      w.runs.held runId = some (t, row) ∧ w'.txns t = w.txns t)
    (jobHeld : ∀ jobId t row, w'.jobs.held jobId = some (t, row) →
      w.jobs.held jobId = some (t, row) ∧ w'.txns t = w.txns t)
    (shared : ∀ runId, w.shared runId = [] → w'.shared runId = [])
    (frame : ∀ t txn, w'.txns t = some txn → w.txns t = some txn ∧ Frame w w' t)
    (awaits : ∀ jobId runId, w'.released jobId = some runId → w'.Awaits jobId runId)
    (ids : ∀ jobId entry, w'.jobs.rows jobId = some entry → jobId ∈ w'.jobIds) : Sound w' where
  exclusive := fun runId t row hheld =>
    shared runId (h.exclusive runId t row (runHeld runId t row hheld).1)
  runOwner := fun runId t row hheld => by
    obtain ⟨hbefore, htxn⟩ := runHeld runId t row hheld
    rw [htxn]
    exact h.runOwner runId t row hbefore
  jobOwner := fun jobId t row hheld => by
    obtain ⟨hbefore, htxn⟩ := jobHeld jobId t row hheld
    rw [htxn]
    exact h.jobOwner jobId t row hbefore
  txns := fun t txn ht => (h.txns t txn (frame t txn ht).1).frame (frame t txn ht).2
  awaits := awaits
  ids := ids

theorem txns_of_unlock (h : update w.txns t none t' = some txn) :
    t' ≠ t ∧ w.txns t' = some txn := by
  by_cases heq : t' = t
  · rw [heq, update_self] at h
    cases h
  · rw [update_of_ne heq] at h
    exact ⟨heq, h⟩

/-- A transaction ends, and gives up what it holds and shares. -/
theorem Sound.ended (h : Sound w) (runs : w'.runs.held = (w.rollback t).runs.held)
    (jobs : w'.jobs.held = (w.rollback t).jobs.held) (shared : w'.shared = (w.rollback t).shared)
    (txns : w'.txns = (w.rollback t).txns)
    (frame : ∀ t' txn, t' ≠ t → w.txns t' = some txn → Frame w w' t')
    (awaits : ∀ jobId runId, w'.released jobId = some runId → w'.Awaits jobId runId)
    (ids : ∀ jobId entry, w'.jobs.rows jobId = some entry → jobId ∈ w'.jobIds) : Sound w' := by
  refine h.framed (fun runId t' row hheld => ?_) (fun jobId t' row hheld => ?_)
    (fun runId hnil => ?_) (fun t' txn ht => ?_) awaits ids
  · rw [runs] at hheld
    obtain ⟨hne, hheld⟩ := rollback_some hheld
    exact ⟨hheld, txns ▸ update_of_ne hne ..⟩
  · rw [jobs] at hheld
    obtain ⟨hne, hheld⟩ := rollback_some hheld
    exact ⟨hheld, txns ▸ update_of_ne hne ..⟩
  · rw [shared]
    show (w.shared runId).filter _ = []
    rw [hnil]
    rfl
  · rw [txns] at ht
    obtain ⟨hne, ht⟩ := txns_of_unlock ht
    exact ⟨ht, frame t' txn hne ht⟩

theorem Sound.rollback (h : Sound w) (t : TxnId) : Sound (w.rollback t) :=
  h.ended rfl rfl rfl rfl (fun _ _ hne _ => frame_rollback hne) h.awaits h.ids

/-- **What a resume leaves of the jobs it woke**: those released for the run are due. -/
theorem Sound.awaits_commit (h : Sound w) (ht : w.txns t = some txn)
    (hfinished : txn.finished = true) (hreleased : w.released jobId = some runId) :
    (w.commit t txn).Awaits jobId runId := by
  have hown := h.txns t txn ht
  obtain ⟨entry, hrow, hof, hpending, hdue⟩ := h.awaits jobId runId hreleased
  by_cases hmine : ∃ row, w.jobs.held jobId = some (t, row)
  · obtain ⟨row, hheld⟩ := hmine
    obtain ⟨entry', runId', rfl, hof', hpending', hjob, hlock⟩ := hown.jobLeft hheld
    obtain rfl : runId' = runId := (ofRun_unique hjob hrow).symm.trans hof
    refine ⟨entry', view_held hheld, hof', hpending', ?_⟩
    rcases hlock with ⟨hshared, hdue'⟩ | ⟨-, hdue'⟩
    · rw [commit_isPaused fun ⟨row, hheld⟩ => by
        rw [h.exclusive runId' t row hheld] at hshared
        cases hshared]
      exact hdue'
    · exact .inr hdue'
  · have hview : w.jobs.view t jobId = some entry :=
      (view_of_not_held fun row hheld => hmine ⟨row, hheld⟩).trans hrow
    refine ⟨entry, hview, hof, hpending, ?_⟩
    by_cases hholds : w.Holds t runId
    · obtain ⟨row, hheld⟩ := hholds
      have hleaves := hown.run runId row hheld
      have hpaused : (w.commit t txn).isPaused runId = row.any fun run => run.status = .paused := by
        rw [World.isPaused, ← view_held hheld]
        rfl
      have hsame : row = w.runs.rows runId →
          (w.commit t txn).isPaused runId = true ∨ Due entry w.now := fun heq => by
        rw [hpaused, heq]
        exact hdue
      cases txn with
      | release jobId' lease runId' availableAt stage => exact hleaves.elim
      | resumeOperator runId' stage =>
        cases stage with
        | waking now left =>
          cases left with
          | nil =>
            obtain rfl : runId' = runId := hleaves
            obtain ⟨-, hle, hwoken⟩ := hown.knows
            obtain ⟨entry', hview', hdue'⟩ :=
              (hwoken jobId hreleased).resolve_left (not_mem_nil)
            cases hview.symm.trans hview'
            exact .inr (Nat.le_trans hdue' hle)
          | cons => cases hfinished
        | unavailable => exact hsame hleaves.2
        | _ => cases hfinished
      | pauseOperator runId' stage =>
        cases stage with
        | changed =>
          obtain ⟨-, run, rfl, hstatus⟩ := hleaves
          rw [hpaused]
          exact .inl (decide_eq_true hstatus)
        | unavailable => exact hsame hleaves.2
        | _ => cases hfinished
    · rw [commit_isPaused hholds]
      exact hdue

theorem Sound.commit (h : Sound w) (ht : w.txns t = some txn) (hfinished : txn.finished = true) :
    Sound (w.commit t txn) := by
  refine h.ended rfl rfl rfl rfl (fun _ _ hne _ => h.frame_commit ht hne)
    (fun jobId runId hreleased => ?_) (fun jobId entry hrow => ?_)
  · have hby : w.releasedBy txn jobId = some runId := hreleased
    unfold World.releasedBy at hby
    split at hby
    · rename_i jobId' lease runId' availableAt
      by_cases heq : jobId = jobId'
      · rw [heq, update_self] at hby
        cases hby
        subst heq
        have hown := h.txns t _ ht
        obtain ⟨-, hshared, hupdated⟩ := hown.knows
        obtain ⟨row, hheld⟩ := hupdated rfl
        obtain ⟨-, entry, rfl, hof, hpending, hdue⟩ := hown.job jobId row hheld
        refine ⟨entry, view_held hheld, hof, hpending, ?_⟩
        rw [commit_isPaused fun ⟨row, hrow⟩ => hown.run runId row hrow]
        exact hdue
      · rw [update_of_ne heq] at hby
        exact h.awaits_commit ht hfinished hby
    · exact h.awaits_commit ht hfinished hby
  · by_cases hmine : ∃ row, w.jobs.held jobId = some (t, row)
    · obtain ⟨row, hheld⟩ := hmine
      obtain ⟨-, runId, -, -, -, ⟨entry₀, hrow₀, -⟩, -⟩ := (h.txns t txn ht).jobLeft hheld
      exact h.ids jobId entry₀ hrow₀
    · exact h.ids jobId entry
        ((view_of_not_held fun row hheld => hmine ⟨row, hheld⟩).symm.trans hrow)

/-! ## Everybody else -/

theorem apply_workflowRunId (now : Nat) (change : Change) :
    (change.apply now entry).job.workflowRunId = entry.job.workflowRunId := by
  cases change with
  | claim => simp only [Change.apply, Entry.claim]; split <;> rfl
  | heartbeat => simp only [Change.apply, Entry.heartbeat]; split <;> rfl
  | complete => simp only [Change.apply, Entry.complete]; split <;> rfl
  | fail => simp only [Change.apply, Entry.fail]; split <;> rfl
  | release => simp only [Change.apply, Entry.release]; split <;> rfl
  | cancel => simp only [Change.apply, Entry.cancel]; split <;> rfl
  | makeAvailable => simp only [Change.apply, Entry.makeAvailable]; split <;> rfl
  | makeJobAvailable => simp only [Change.apply, Entry.makeJobAvailable]; split <;> rfl
  | redrive => simp only [Change.apply, Entry.redrive]; split <;> rfl
  | requeueExpired =>
    simp only [Change.apply, Entry.requeueExpired]
    split
    · split <;> rfl
    · rfl
  | revive => simp only [Change.apply, Entry.reviveTerminalJob]; split <;> rfl

/-- A step that takes no lock and gives up none. -/
theorem Sound.unlocked (h : Sound w) (now : w.now ≤ w'.now) (runs : w'.runs.held = w.runs.held)
    (jobs : w'.jobs.held = w.jobs.held) (shared : w'.shared = w.shared) (txns : w'.txns = w.txns)
    (runRow : ∀ t runId, w.Holds t runId → w'.runs.rows runId = w.runs.rows runId)
    (paused : ∀ t runId, t ∈ w.shared runId → w'.isPaused runId = w.isPaused runId)
    (ofRun : ∀ jobId runId, w.OfRun jobId runId → w'.OfRun jobId runId)
    (released : ∀ t jobId runId, w'.released jobId = some runId →
      w.released jobId = some runId ∧ ∀ entry, w.jobs.view t jobId = some entry →
        ∃ entry', w'.jobs.view t jobId = some entry' ∧
          entry'.job.availableAt ≤ entry.job.availableAt)
    (awaits : ∀ jobId runId, w'.released jobId = some runId → w'.Awaits jobId runId)
    (ids : ∀ jobId entry, w'.jobs.rows jobId = some entry → jobId ∈ w'.jobIds) : Sound w' := by
  refine h.framed (fun _ _ _ hheld => ⟨by rwa [← runs], by rw [txns]⟩)
    (fun _ _ _ hheld => ⟨by rwa [← jobs], by rw [txns]⟩) (fun _ hnil => by rwa [shared])
    (fun t txn ht => ⟨by rwa [← txns], ?_⟩) awaits ids
  exact ⟨now, fun _ _ => by rw [runs], runRow t, fun _ hmem => by rwa [shared], paused t,
    fun _ _ => by rw [jobs], ofRun, fun jobId runId _ => released t jobId runId⟩

theorem Sound.tick (h : Sound w) (hle : w.now ≤ now) : Sound { w with now } := by
  refine h.unlocked hle rfl rfl rfl rfl (fun _ _ _ => rfl) (fun _ _ _ => rfl) (fun _ _ => id)
    (fun _ _ _ hreleased => ⟨hreleased, fun entry hview => ⟨entry, hview, Nat.le_refl _⟩⟩)
    (fun jobId runId hreleased => ?_) h.ids
  obtain ⟨entry, hrow, hof, hpending, hdue⟩ := h.awaits jobId runId hreleased
  exact ⟨entry, hrow, hof, hpending, hdue.imp_right fun hdue => Nat.le_trans hdue hle⟩

theorem Sound.enqueue {new : NewJob} (h : Sound w) (hnone : w.jobs.rows jobId = none) :
    Sound { w with
      jobs := { w.jobs with
        rows := update w.jobs.rows jobId (some ⟨new.row jobId w.now, [], 0, 0⟩) }
      jobIds := w.jobIds ++ [jobId] } := by
  have hold : ∀ jobId' entry, w.jobs.rows jobId' = some entry →
      update w.jobs.rows jobId (some ⟨new.row jobId w.now, [], 0, 0⟩) jobId' =
        some entry := by
    intro jobId' entry hrow
    have hne : jobId' ≠ jobId := by
      rintro rfl
      rw [hnone] at hrow
      cases hrow
    rw [update_of_ne hne, hrow]
  have hofRun : ∀ jobId' runId, w.OfRun jobId' runId → ∃ entry,
      update w.jobs.rows jobId (some ⟨new.row jobId w.now, [], 0, 0⟩) jobId' =
        some entry ∧ entry.job.workflowRunId = runId := fun jobId' _ ⟨entry, hrow, hof⟩ =>
    ⟨entry, hold jobId' entry hrow, hof⟩
  refine h.unlocked (Nat.le_refl _) rfl rfl rfl rfl (fun _ _ _ => rfl) (fun _ _ _ => rfl) hofRun
    (fun t jobId' runId hreleased => ⟨hreleased, fun entry hview => ⟨entry, ?_, Nat.le_refl _⟩⟩)
    (fun jobId' runId hreleased => ?_) (fun jobId' entry hrow => ?_)
  · obtain ⟨entry₀, hrow₀, -⟩ := h.awaits jobId' runId hreleased
    rw [← hview]
    exact view_eq ((hold jobId' entry₀ hrow₀).trans hrow₀.symm) fun _ => Iff.rfl
  · obtain ⟨entry, hrow, hrest⟩ := h.awaits jobId' runId hreleased
    exact ⟨entry, hold jobId' entry hrow, hrest⟩
  · by_cases heq : jobId' = jobId
    · rw [heq]
      exact mem_append_right _ (mem_singleton_self _)
    · have hrow' : update w.jobs.rows jobId _ jobId' = some entry := hrow
      rw [update_of_ne heq] at hrow'
      exact mem_append_left _ (h.ids jobId' entry hrow')

theorem keepsDue_iff : keepsDue entry entry' = true ↔
    entry'.job.status = .pending ∧ entry'.job.availableAt ≤ entry.job.availableAt := by
  simp [keepsDue]

theorem Sound.change {change : Entry → Entry} (h : Sound w)
    (hkeeps : ∀ entry, (change entry).job.workflowRunId = entry.job.workflowRunId)
    (hs : w.change jobId change = some w') : Sound w' := by
  unfold World.change at hs
  split at hs
  next entry hheld hrow =>
    cases hs
    -- What stays released is as it was, or the job that changed, due no later.
    have hreleased : ∀ jobId' runId,
        (if keepsDue entry (change entry) then w.released
          else update w.released jobId none) jobId' = some runId →
        w.released jobId' = some runId ∧
          (jobId' ≠ jobId ∨ jobId' = jobId ∧ keepsDue entry (change entry) = true) := by
      intro jobId' runId hafter
      by_cases heq : jobId' = jobId
      · by_cases hdue : keepsDue entry (change entry) = true
        · rw [if_pos hdue] at hafter
          exact ⟨hafter, .inr ⟨heq, hdue⟩⟩
        · rw [if_neg hdue, heq, update_self] at hafter
          cases hafter
      · refine ⟨?_, .inl heq⟩
        split at hafter
        · exact hafter
        · rwa [update_of_ne heq] at hafter
    have hother : ∀ {jobId'}, jobId' ≠ jobId →
        update w.jobs.rows jobId (some (change entry)) jobId' = w.jobs.rows jobId' :=
      fun hne => update_of_ne hne ..
    refine h.unlocked (Nat.le_refl _) rfl rfl rfl rfl (fun _ _ _ => rfl) (fun _ _ _ => rfl)
      (fun jobId' runId hof => ?_) (fun t jobId' runId hafter => ?_)
      (fun jobId' runId hafter => ?_) (fun jobId' entry' hrow' => ?_)
    · obtain ⟨entry', hrow', hof⟩ := hof
      by_cases heq : jobId' = jobId
      · subst heq
        cases hrow.symm.trans hrow'
        exact ⟨change entry, update_self .., (hkeeps entry).trans hof⟩
      · exact ⟨entry', (hother heq).trans hrow', hof⟩
    · obtain ⟨hbefore, hwhich⟩ := hreleased jobId' runId hafter
      refine ⟨hbefore, fun entry' hview => ?_⟩
      rcases hwhich with hne | ⟨rfl, hdue⟩
      · refine ⟨entry', ?_, Nat.le_refl _⟩
        rw [← hview]
        exact view_eq (hother hne) fun _ => Iff.rfl
      · rw [view_none hheld, hrow] at hview
        cases hview
        refine ⟨change entry, (view_none ?_).trans (update_self ..), (keepsDue_iff.mp hdue).2⟩
        exact hheld
    · obtain ⟨hbefore, hwhich⟩ := hreleased jobId' runId hafter
      obtain ⟨entry', hrow', hof, hpending, hdue⟩ := h.awaits jobId' runId hbefore
      rcases hwhich with hne | ⟨rfl, hkept⟩
      · exact ⟨entry', (hother hne).trans hrow', hof, hpending, hdue⟩
      · cases hrow.symm.trans hrow'
        obtain ⟨hpending', hle⟩ := keepsDue_iff.mp hkept
        exact ⟨change entry, update_self .., (hkeeps entry).trans hof, hpending',
          hdue.imp_right fun hdue => hdue.earlier hle (Nat.le_refl _)⟩
    · by_cases heq : jobId' = jobId
      · rw [heq]
        exact h.ids jobId entry hrow
      · exact h.ids jobId' entry' ((hother heq).symm.trans hrow')
  next => cases hs

theorem isPaused_of_isActive (hrow : w.runs.rows runId = some run)
    (hactive : run.status.isActive = true) : w.isPaused runId = false := by
  rw [World.isPaused, hrow]
  exact decide_eq_false fun heq => by rw [heq] at hactive; cases hactive

theorem World.Holds.ne (h : w.Holds t runId') (hheld : w.runs.held runId = none) :
    runId' ≠ runId := by
  rintro rfl
  obtain ⟨row, hrow⟩ := h
  rw [hheld] at hrow
  cases hrow

theorem Sound.setPhase {run run' : RunRow} (h : Sound w) (hheld : w.runs.held runId = none)
    (hrow : w.runs.rows runId = some run) (hactive : run.status.isActive = true)
    (hactive' : run'.status.isActive = true) : Sound { w with
      runs := { w.runs with rows := update w.runs.rows runId (some run') } } := by
  let w' : World := { w with
    runs := { w.runs with rows := update w.runs.rows runId (some run') } }
  have hpaused : ∀ runId', w'.isPaused runId' = w.isPaused runId' := by
    intro runId'
    by_cases heq : runId' = runId
    · rw [heq, isPaused_of_isActive hrow hactive]
      have hrow' : w'.runs.rows runId = some run' := update_self ..
      exact isPaused_of_isActive hrow' hactive'
    · rw [World.isPaused, World.isPaused]
      exact congrArg _ (update_of_ne heq ..)
  show Sound w'
  refine h.unlocked (Nat.le_refl _) rfl rfl rfl rfl (fun t runId' hholds => ?_)
    (fun _ runId' _ => hpaused runId') (fun _ _ => id) (fun _ _ _ hreleased =>
      ⟨hreleased, fun entry hview => ⟨entry, hview, Nat.le_refl _⟩⟩)
    (fun jobId runId' hreleased => ?_) h.ids
  · exact update_of_ne (hholds.ne hheld) ..
  · obtain ⟨entry, hrow, hof, hpending, hdue⟩ := h.awaits jobId runId' hreleased
    exact ⟨entry, hrow, hof, hpending, by rwa [hpaused]⟩

theorem cancel_workflowRunId (now : Nat) :
    (entry.cancel now).job.workflowRunId = entry.job.workflowRunId :=
  apply_workflowRunId now .cancel

theorem Sound.finish {run' : RunRow} (h : Sound w) (hheld : w.runs.held runId = none)
    (hshared : w.shared runId = []) : Sound ({ w with
      runs := { w.runs with
        rows := update w.runs.rows runId (some run') } }.cancelJobs runId) := by
  let w₁ : World := { w with
    runs := { w.runs with rows := update w.runs.rows runId (some run') } }
  have hpaused : ∀ {runId'}, runId' ≠ runId →
      (w₁.cancelJobs runId).isPaused runId' = w.isPaused runId' := fun hne => by
    exact congrArg _ (update_of_ne hne ..)
  have hrows : ∀ jobId' entry, w.jobs.rows jobId' = some entry →
      (w₁.cancelJobs runId).jobs.rows jobId' =
        some (if liveJob runId entry then entry.cancel w.now else entry) := by
    intro jobId' entry hrow
    show (w.jobs.rows jobId').map _ = _
    rw [hrow]
    rfl
  -- A job that stays released is not the run's.
  have hreleased : ∀ jobId' runId', (w₁.cancelJobs runId).released jobId' = some runId' →
      w.released jobId' = some runId' ∧ ∀ entry, w.jobs.rows jobId' = some entry →
        liveJob runId entry = false := by
    intro jobId' runId' hafter
    have hafter' : (if (w.jobs.rows jobId').any (liveJob runId) then none
        else w.released jobId') = some runId' := hafter
    split at hafter'
    next => cases hafter'
    next hlive =>
      refine ⟨hafter', fun entry hrow => Bool.eq_false_iff.mpr fun h => hlive ?_⟩
      rw [hrow]
      exact h
  show Sound (w₁.cancelJobs runId)
  refine h.unlocked (Nat.le_refl _) rfl rfl rfl rfl (fun t runId' hholds => ?_)
    (fun t runId' hmem => ?_) (fun jobId' runId' hof => ?_) (fun t jobId' runId' hafter => ?_)
    (fun jobId' runId' hafter => ?_) (fun jobId' entry hrow => ?_)
  · exact update_of_ne (hholds.ne hheld) ..
  · refine hpaused ?_
    rintro rfl
    rw [hshared] at hmem
    cases hmem
  · obtain ⟨entry, hrow, hof⟩ := hof
    refine ⟨_, hrows jobId' entry hrow, ?_⟩
    split
    · exact (cancel_workflowRunId w.now).trans hof
    · exact hof
  · obtain ⟨hbefore, hlive⟩ := hreleased jobId' runId' hafter
    refine ⟨hbefore, fun entry hview => ⟨entry, ?_, Nat.le_refl _⟩⟩
    obtain ⟨entry₀, hrow₀, -⟩ := h.awaits jobId' runId' hbefore
    rw [← hview]
    refine view_eq ?_ fun _ => Iff.rfl
    rw [hrows jobId' entry₀ hrow₀, hrow₀, hlive entry₀ hrow₀]
    rfl
  · obtain ⟨hbefore, hlive⟩ := hreleased jobId' runId' hafter
    obtain ⟨entry, hrow, hof, hpending, hdue⟩ := h.awaits jobId' runId' hbefore
    replace hlive := hlive entry hrow
    have hne : runId' ≠ runId := by
      rintro rfl
      simp [liveJob, hof, hpending, Status.isTerminal] at hlive
    refine ⟨entry, ?_, hof, hpending, ?_⟩
    · rw [hrows jobId' entry hrow, hlive]
      rfl
    · rw [hpaused hne]
      exact hdue
  · obtain ⟨entry₀, hrow₀, -⟩ := map_eq_some_iff.mp
      (show (w.jobs.rows jobId').map _ = some entry from hrow)
    exact h.ids jobId' entry₀ hrow₀

theorem Sound.begin (h : Sound w) (hs : w.begin t txn = some w') (hknows : txn.Knows w' t) :
    Sound w' := by
  unfold World.begin at hs
  split at hs
  next hnone =>
    cases hs
    have hidle : w.txns t = none := isNone_iff_eq_none.mp hnone
    refine h.moved (moved_setTxn h) ⟨hknows, fun runId row hheld => ?_, fun jobId row hheld => ?_⟩
    · obtain ⟨txn', ht⟩ := h.runOwner runId t row hheld
      rw [hidle] at ht
      cases ht
    · obtain ⟨txn', ht⟩ := h.jobOwner jobId t row hheld
      rw [hidle] at ht
      cases ht
  next => cases hs

theorem begin_jobs (h : w.begin t txn = some w') : w'.jobs = w.jobs := by
  unfold World.begin at h
  split at h
  · cases h
    rfl
  · cases h

theorem sound_start (now : Nat) (runs : RunId → Option RunRow) : Sound (start now runs) where
  exclusive := fun _ _ _ h => nomatch h
  runOwner := fun _ _ _ h => nomatch h
  jobOwner := fun _ _ _ h => nomatch h
  txns := fun _ _ h => nomatch h
  awaits := fun _ _ h => nomatch h
  ids := fun _ _ h => nomatch h

theorem Sound.step {e : Event} (h : Sound w) (hs : step w e = some w') : Sound w' := by
  cases e with
  | tick now =>
    rw [Parking.step] at hs
    split at hs
    next hle =>
      cases hs
      exact h.tick hle
    next => cases hs
  | enqueue jobId new =>
    rw [Parking.step] at hs
    split at hs
    next hnone =>
      cases hs
      exact h.enqueue (isNone_iff_eq_none.mp hnone)
    next => cases hs
  | release t jobId lease availableAt =>
    obtain ⟨entry, hrow, hs⟩ := bind_eq_some_iff.mp hs
    refine h.begin hs ⟨⟨entry, ?_, rfl⟩, trivial⟩
    rw [begin_jobs hs, hrow]
  | resumeOperator t runId | pauseOperator t runId => exact h.begin hs trivial
  | advance t =>
    rw [Parking.step] at hs
    split at hs
    next => cases hs
    next ht => exact h.release ht hs
    next ht => exact h.resumeOperator ht hs
    next ht => exact h.pauseOperator ht hs
  | commit t =>
    rw [Parking.step] at hs
    split at hs
    next ht =>
      split at hs
      next hfinished =>
        cases hs
        exact h.commit ht hfinished
      next => cases hs
    next => cases hs
  | rollback t =>
    cases hs
    exact h.rollback t
  | change jobId change => exact h.change (fun _ => apply_workflowRunId w.now change) hs
  | setPhase runId status phase batch =>
    rw [Parking.step] at hs
    split at hs
    next run hheld hrow =>
      split at hs
      next hactive =>
        cases hs
        simp only [Bool.and_eq_true] at hactive
        exact h.setPhase hheld hrow hactive.1.1 hactive.1.2
      next => cases hs
    next => cases hs
  | finish runId status =>
    rw [Parking.step] at hs
    split at hs
    next run hheld hrow =>
      split at hs
      next hends =>
        cases hs
        simp only [Bool.and_eq_true, List.isEmpty_iff] at hends
        exact h.finish hheld hends.1.2
      next => cases hs
    next => cases hs

/-- **No lost wake**: a job that was released for a paused run can be claimed whenever the run is
not paused, through any order of the statements and commits of all the transactions. -/
theorem no_lost_wake {now : Nat} {runs : RunId → Option RunRow}
    (h : Reach step anyEvent (start now runs) w) (hreleased : w.released jobId = some runId)
    (hrun : w.isPaused runId = false) :
    ∃ entry, w.jobs.rows jobId = some entry ∧ isDue entry.job w.now = true := by
  have hsound : Sound w := h.invariant (sound_start now runs) fun _ _ _ hsound _ => hsound.step
  obtain ⟨entry, hrow, -, hpending, hdue⟩ := hsound.awaits jobId runId hreleased
  refine ⟨entry, hrow, ?_⟩
  rcases hdue with hpaused | hdue
  · rw [hrun] at hpaused
    cases hpaused
  · rw [isDue, hpending]
    exact decide_eq_true hdue

def pausedRuns : RunId → Option RunRow := fun runId =>
  if runId = "run" then some ⟨.running, .process, true, none⟩ else none

/-- A release that saw the run paused, between the begin of a resume and its first lock. -/
def parkedEvents : List Event :=
  [.enqueue "job" ⟨"tenant", "run", none, .batchItem, "{}", none, none, none, none⟩,
    .change "job" (.claim "worker" "token" 60),
    .pauseOperator 1 "run", .advance 1, .advance 1, .commit 1,
    .release 2 "job" ⟨"worker", "token", 1⟩ 3600000, .resumeOperator 3 "run",
    .advance 2, .advance 2, .advance 2, .commit 2,
    .tick 7, .advance 3, .advance 3, .advance 3, .advance 3, .advance 3, .commit 3]

theorem no_lost_wake_parked : ∃ w, exec step (start 0 pausedRuns) parkedEvents = some w ∧
    ∃ entry, w.jobs.rows "job" = some entry ∧ isDue entry.job w.now = true := by
  have hrun : (exec step (start 0 pausedRuns) parkedEvents).map
      (fun w => (w.released "job", w.isPaused "run")) = some (some "run", false) := by
    decide +kernel
  obtain ⟨w, hw, hshows⟩ := map_eq_some_iff.mp hrun
  obtain ⟨hreleased, hactive⟩ := Prod.mk.inj hshows
  exact ⟨w, hw, no_lost_wake (reach_of_exec hw) hreleased hactive⟩

end Catamorphic.Execution.Parking
