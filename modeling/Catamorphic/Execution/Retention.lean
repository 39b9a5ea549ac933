import Mathlib.Algebra.Order.BigOperators.Group.List
import Mathlib.Algebra.Order.Group.Nat
import Mathlib.Data.List.Count
import Mathlib.Data.List.Sort
import Mathlib.Data.Prod.Lex
import Catamorphic.Execution.RunRows

/-!
# Purging expired runs

A purge chooses a batch of old roots first, and then leaves out those whose trees hold a live run.
So a batch of blocked roots keeps every later root from being chosen, and a drain stops there.
-/

namespace Catamorphic.Execution.Retention

open List

structure Run where
  id : Nat
  projectId : Nat
  parentRunId : Option Nat
  status : Coordinator.RunStatus
  completedAt : Option Int
  deriving DecidableEq

/-- No candidate's `completedAt` is null. -/
def Run.finished (run : Run) : Int := run.completedAt.getD 0

/-- A project, with the days that its tenant's policy keeps a run. -/
structure Project where
  id : Nat
  retentionDays : Option Nat

structure Db where
  projects : List Project
  runs : List Run
  projectIds : (projects.map Project.id).Nodup
  runIds : (runs.map Run.id).Nodup

structure RetentionService where
  enabled : Bool := true
  runRetentionDays : Nat := 90
  purgeBatchSize : Nat := 1000

/-- `ORDER BY completed_at`: rows of one time come in any order. -/
structure OrderBy where
  rows : List Run → List Run
  perm : ∀ runs, rows runs ~ runs
  sorted : ∀ runs, (rows runs).Pairwise (·.finished ≤ ·.finished)

/-- What a call meets: the clock as it is read for each project, and the orders of its rows. -/
structure Call where
  clock : Nat → Int
  order : OrderBy

/-- The `tree` query, level by level. A run has one parent, so no level meets it again. -/
def tree : Nat → List Run → List Nat → List Run
  | 0, _, _ => []
  | fuel + 1, runs, above =>
    let below := runs.filter fun run => run.parentRunId.any (· ∈ above)
    if below = [] then [] else
      below ++ tree fuel (runs.filter fun run => !run.parentRunId.any (· ∈ above))
        (below.map Run.id)

def Db.tree (db : Db) (roots : List Run) : List Run :=
  roots ++ Retention.tree db.runs.length db.runs (roots.map Run.id)

def Db.blocked (db : Db) (root : Run) : Bool :=
  (db.tree [root]).any fun descendant => !descendant.status.isTerminal

/-- The rows go with all that hangs off them. -/
def Db.delete (db : Db) (roots : List Run) : Db :=
  { db with
    runs := db.runs.filter (· ∉ db.tree roots)
    runIds := db.runIds.sublist (filter_sublist.map _) }

namespace RetentionService

/-- In milliseconds. -/
def purgeBefore (s : RetentionService) (clock : Nat → Int) (project : Project) : Int :=
  clock project.id - project.retentionDays.getD s.runRetentionDays * 86400000

def isCandidate (s : RetentionService) (clock : Nat → Int) (project : Project) (run : Run) :
    Bool :=
  run.projectId = project.id && run.status.isTerminal &&
    run.completedAt.any (· < s.purgeBefore clock project) && run.parentRunId.isNone

/-- The candidates before any limit. -/
def expired (s : RetentionService) (clock : Nat → Int) (db : Db) : List Run :=
  db.projects.flatMap fun project => db.runs.filter (s.isCandidate clock project)

def candidates (s : RetentionService) (limit : Nat) (call : Call) (db : Db) : List Run :=
  (call.order.rows <| db.projects.flatMap fun project =>
    (call.order.rows (db.runs.filter (s.isCandidate call.clock project))).take limit).take limit

def limit (s : RetentionService) (limit? : Option Int) : Nat :=
  (max 1 (min (limit?.getD s.purgeBatchSize) 50000)).toNat

def purgeExpiredRuns (s : RetentionService) (limit? : Option Int) (call : Call) (db : Db) :
    Db × Nat :=
  if s.enabled then
    let roots := (s.candidates (s.limit limit?) call db).filter (!db.blocked ·)
    (db.delete roots, roots.length)
  else (db, 0)

/-- A caller calls until it is told zero; with the call that told it. -/
def drain (s : RetentionService) (limit? : Option Int) : List Call → Db → Option (Db × Call)
  | [], _ => none
  | call :: calls, db =>
    match s.purgeExpiredRuns limit? call db with
    | (db, 0) => some (db, call)
    | (db, _ + 1) => s.drain limit? calls db

/-- A root that is old at this time, of a tree that has settled. -/
def Purgeable (s : RetentionService) (clock : Nat → Int) (db : Db) (root : Run) : Prop :=
  root ∈ s.expired clock db ∧ db.blocked root = false

/-- How many blocked candidates completed at or before it. -/
def blockedBefore (s : RetentionService) (clock : Nat → Int) (db : Db) (root : Run) : Nat :=
  (s.expired clock db).countP fun run => db.blocked run && run.finished ≤ root.finished

end RetentionService

/-- The run hangs off the run `id`. -/
inductive Under (runs : List Run) (id : Nat) : Run → Prop
  | child {run} : run ∈ runs → run.parentRunId = some id → Under runs id run
  | step {parent run} : Under runs id parent → run ∈ runs → run.parentRunId = some parent.id →
      Under runs id run

variable {s : RetentionService} {limit? : Option Int} {call : Call} {calls : List Call}
  {clock clock' : Nat → Int} {db after : Db} {root root' run : Run} {roots runs runs' : List Run}
  {id id' : Nat} {q : Run → Bool} {limit : Nat}

/-! ## Trees -/

theorem Under.mem (h : Under runs id run) : run ∈ runs := by
  cases h <;> assumption

theorem Under.parent (h : Under runs id run) : run.parentRunId ≠ none := by
  cases h <;> simp_all

theorem Under.mono (h : Under runs id run) (hsub : runs ⊆ runs') : Under runs' id run := by
  induction h with
  | child hmem hparent => exact .child (hsub hmem) hparent
  | step _ hmem hparent ih => exact .step ih (hsub hmem) hparent

theorem mem_tree {fuel : Nat} {above : List Nat} (hfuel : runs.length ≤ fuel) :
    run ∈ tree fuel runs above ↔ ∃ id ∈ above, Under runs id run := by
  induction fuel generalizing runs above run with
  | zero =>
    have hnil : runs = [] := by simpa using hfuel
    subst hnil
    simp only [tree, not_mem_nil, false_iff, not_exists, not_and]
    exact fun _ _ h => not_mem_nil h.mem
  | succ fuel ih =>
    have hmem : ∀ run, run ∈ runs.filter (fun run => run.parentRunId.any (· ∈ above)) ↔
        run ∈ runs ∧ ∃ id ∈ above, run.parentRunId = some id := by
      simp [Option.any_eq_true, and_comm]
    rw [tree]
    split
    case isTrue hnone =>
      simp only [not_mem_nil, false_iff, not_exists, not_and]
      intro id hid h
      have hfirst : ∃ run, run ∈ runs ∧ run.parentRunId = some id := by
        induction h with
        | child hrun hparent => exact ⟨_, hrun, hparent⟩
        | step _ _ _ ih => exact ih
      obtain ⟨run, hrun, hparent⟩ := hfirst
      simpa [hnone] using (hmem run).mpr ⟨hrun, id, hid, hparent⟩
    case isFalse hsome =>
      have hless : (runs.filter fun run => !run.parentRunId.any (· ∈ above)).length ≤ fuel := by
        obtain ⟨run, hrun⟩ := exists_mem_of_ne_nil _ hsome
        have hlt : (runs.filter fun run => !run.parentRunId.any (· ∈ above)).length <
            runs.length :=
          length_filter_lt_length_iff_exists.mpr
            ⟨run, (mem_filter.mp hrun).1, by simp [(mem_filter.mp hrun).2]⟩
        omega
      rw [mem_append, ih hless, hmem]
      constructor
      · rintro (⟨hrun, id, hid, hparent⟩ | ⟨id', hid', h⟩)
        · exact ⟨id, hid, .child hrun hparent⟩
        obtain ⟨parent, hmid, rfl⟩ := mem_map.mp hid'
        obtain ⟨hmid, id, hid, hparent⟩ := (hmem parent).mp hmid
        refine ⟨id, hid, ?_⟩
        induction h with
        | child hrun h => exact .step (.child hmid hparent) (mem_filter.mp hrun).1 h
        | step _ hrun h ih => exact .step ih (mem_filter.mp hrun).1 h
      · rintro ⟨id, hid, h⟩
        -- the last run of the path that hangs off the runs above
        induction h with
        | child hrun hparent => exact .inl ⟨hrun, id, hid, hparent⟩
        | @step parent run _ hrun hparent ih =>
          by_cases hnear : ∃ id ∈ above, run.parentRunId = some id
          · exact .inl ⟨hrun, hnear⟩
          have hfar : run ∈ runs.filter fun run => !run.parentRunId.any (· ∈ above) := by
            simp_all
          obtain hmid | ⟨id', hid', h⟩ := ih
          · exact .inr ⟨_, mem_map_of_mem ((hmem parent).mpr hmid), .child hfar hparent⟩
          · exact .inr ⟨id', hid', .step h hfar hparent⟩

def Db.InTree (db : Db) (root run : Run) : Prop := run = root ∨ Under db.runs root.id run

theorem Db.mem_tree : run ∈ db.tree roots ↔ ∃ root ∈ roots, db.InTree root run := by
  simp only [Db.tree, mem_append, Retention.mem_tree le_rfl, Db.InTree]
  grind

theorem Db.blocked_eq_true :
    db.blocked root = true ↔ ∃ run, db.InTree root run ∧ run.status.isTerminal = false := by
  simp [Db.blocked, Db.mem_tree]

theorem Db.same (h : run ∈ db.runs) (h' : root ∈ db.runs) (hid : run.id = root.id) : run = root :=
  inj_on_of_nodup_map db.runIds h h' hid

/-! ## What a call deletes -/

theorem Db.mem_delete : run ∈ (db.delete roots).runs ↔ run ∈ db.runs ∧ run ∉ db.tree roots := by
  simp [Db.delete]

/-- The roots that a call chooses. -/
def Roots (db : Db) (roots : List Run) : Prop :=
  ∀ root ∈ roots, root ∈ db.runs ∧ root.parentRunId = none ∧ db.blocked root = false

/-- Of the rows without a parent only the roots go. -/
theorem Db.mem_tree_top (htop : root.parentRunId = none) : root ∈ db.tree roots ↔ root ∈ roots := by
  rw [Db.mem_tree]
  constructor
  · rintro ⟨other, hother, rfl | h⟩
    · exact hother
    · exact absurd htop h.parent
  · exact fun h => ⟨root, h, .inl rfl⟩

/-- A run goes with its parent, and only so. -/
theorem Roots.mem_tree_parent {parent : Run} (hroots : Roots db roots) (hmem : parent ∈ db.runs)
    (hrun : run ∈ db.runs) (hparent : run.parentRunId = some parent.id) :
    run ∈ db.tree roots ↔ parent ∈ db.tree roots := by
  rw [Db.mem_tree, Db.mem_tree]
  constructor
  · rintro ⟨root, hroot, rfl | ⟨-, hparent'⟩ | ⟨h, -, hparent'⟩⟩
    · simp [(hroots _ hroot).2.1] at hparent
    · rw [hparent] at hparent'
      exact ⟨root, hroot, .inl (Db.same hmem (hroots _ hroot).1 (Option.some.inj hparent'))⟩
    · rw [hparent] at hparent'
      cases Db.same hmem h.mem (Option.some.inj hparent')
      exact ⟨root, hroot, .inr h⟩
  · rintro ⟨root, hroot, rfl | h⟩
    · exact ⟨_, hroot, .inr (.child hrun hparent)⟩
    · exact ⟨root, hroot, .inr (.step h hrun hparent)⟩

theorem Roots.inTree (hroots : Roots db roots) (hroot : root ∈ (db.delete roots).runs) :
    (db.delete roots).InTree root run ↔ db.InTree root run := by
  refine or_congr_right ⟨fun h => h.mono filter_sublist.subset, fun h => ?_⟩
  obtain ⟨hmem, hkept⟩ := Db.mem_delete.mp hroot
  induction h with
  | child hrun hparent =>
    exact .child (Db.mem_delete.mpr
      ⟨hrun, mt (hroots.mem_tree_parent hmem hrun hparent).mp hkept⟩) hparent
  | step h hrun hparent ih =>
    have hparentKept := (Db.mem_delete.mp ih.mem).2
    exact .step ih (Db.mem_delete.mpr
      ⟨hrun, mt (hroots.mem_tree_parent h.mem hrun hparent).mp hparentKept⟩) hparent

theorem Roots.blocked (hroots : Roots db roots) (hroot : root ∈ (db.delete roots).runs) :
    (db.delete roots).blocked root = db.blocked root := by
  rw [Bool.eq_iff_iff, Db.blocked_eq_true, Db.blocked_eq_true]
  simp only [hroots.inTree hroot]

namespace RetentionService

theorem mem_expired : run ∈ s.expired clock db ↔
    run ∈ db.runs ∧ ∃ project ∈ db.projects, s.isCandidate clock project run = true := by
  simp [expired]
  grind

theorem top_of_mem_expired (h : run ∈ s.expired clock db) :
    run ∈ db.runs ∧ run.parentRunId = none := by
  obtain ⟨hmem, project, -, h⟩ := mem_expired.mp h
  simp only [isCandidate, Bool.and_eq_true, Option.isNone_iff_eq_none] at h
  exact ⟨hmem, h.2⟩

theorem mem_expired_delete : run ∈ s.expired clock (db.delete roots) ↔
      run ∈ s.expired clock db ∧ run ∈ (db.delete roots).runs := by
  rw [mem_expired, mem_expired, Db.mem_delete]
  exact ⟨fun ⟨h, hp⟩ => ⟨⟨h.1, hp⟩, h⟩, fun ⟨⟨_, hp⟩, h⟩ => ⟨h, hp⟩⟩

theorem mem_expired_mono (hclock : ∀ id, clock id ≤ clock' id) (h : run ∈ s.expired clock db) :
    run ∈ s.expired clock' db := by
  obtain ⟨hmem, project, hproject, h⟩ := mem_expired.mp h
  refine mem_expired.mpr ⟨hmem, project, hproject, ?_⟩
  cases hdone : run.completedAt <;>
    simp_all only [isCandidate, purgeBefore, Bool.and_eq_true]
  · grind
  · grind

theorem purgeable_delete (hroots : Roots db roots) : s.Purgeable clock (db.delete roots) root ↔
      s.Purgeable clock db root ∧ root ∈ (db.delete roots).runs := by
  rw [Purgeable, Purgeable, mem_expired_delete, and_right_comm]
  exact and_congr_left fun hmem => by rw [hroots.blocked hmem]

/-- The blocked candidates stay. -/
theorem blockedBefore_delete (hroots : Roots db roots) :
    s.blockedBefore clock (db.delete roots) root = s.blockedBefore clock db root := by
  simp only [blockedBefore, expired, countP_flatMap, Function.comp_def]
  refine congrArg sum (map_congr_left fun project _ => ?_)
  have hkept : ∀ run ∈ db.runs, s.isCandidate clock project run = true →
      ((db.delete roots).blocked run && run ∉ db.tree roots) = db.blocked run := by
    intro run hrun h
    simp only [isCandidate, Bool.and_eq_true, Option.isNone_iff_eq_none] at h
    by_cases hgone : run ∈ db.tree roots
    · simp [hgone, (hroots run ((Db.mem_tree_top h.2).mp hgone)).2.2]
    · simp [hgone, hroots.blocked (Db.mem_delete.mpr ⟨hrun, hgone⟩)]
  simp only [Db.delete, countP_filter] at hkept ⊢
  refine countP_congr fun run hrun => ?_
  grind

/-- A run of a settled old tree. -/
def Doomed (s : RetentionService) (clock : Nat → Int) (db : Db) (run : Run) : Prop :=
  ∃ root, s.Purgeable clock db root ∧ db.InTree root run

theorem roots_of_purgeable (hroots : ∀ root ∈ roots, s.Purgeable clock db root) :
    Roots db roots := fun root hroot =>
  have h := hroots root hroot
  ⟨(top_of_mem_expired h.1).1, (top_of_mem_expired h.1).2, h.2⟩

theorem doomed_delete (hroots : ∀ root ∈ roots, s.Purgeable clock db root) :
    (run ∈ (db.delete roots).runs ∧ ¬ s.Doomed clock (db.delete roots) run) ↔
      run ∈ db.runs ∧ ¬ s.Doomed clock db run := by
  have hchosen := roots_of_purgeable hroots
  rw [Db.mem_delete, and_assoc]
  refine and_congr_right fun hrun => ⟨fun ⟨hkept, hlater⟩ ⟨root, hroot, hin⟩ => ?_, fun hsafe =>
    ⟨fun hgone => ?_, fun ⟨root, hroot, hin⟩ => ?_⟩⟩
  · obtain ⟨hmem, htop⟩ := top_of_mem_expired hroot.1
    have hstays : root ∈ (db.delete roots).runs := Db.mem_delete.mpr ⟨hmem, fun hgone =>
      hkept (Db.mem_tree.mpr ⟨root, (Db.mem_tree_top htop).mp hgone, hin⟩)⟩
    exact hlater ⟨root, (purgeable_delete hchosen).mpr ⟨hroot, hstays⟩,
      (hchosen.inTree hstays).mpr hin⟩
  · obtain ⟨root, hroot, hin⟩ := Db.mem_tree.mp hgone
    exact hsafe ⟨root, hroots root hroot, hin⟩
  · obtain ⟨hroot, hstays⟩ := (purgeable_delete hchosen).mp hroot
    exact hsafe ⟨root, hroot, (hchosen.inTree hstays).mp hin⟩

/-! ## Which candidates a call chooses -/

theorem countP_take {runs : List Run} (h : runs.Pairwise fun a b => q b → q a) (n : Nat) :
    (runs.take n).countP q = min n (runs.countP q) := by
  induction h generalizing n with
  | nil => simp
  | @cons run runs hfirst _ ih =>
    cases n with
    | zero => simp
    | succ n =>
      rw [take_succ_cons]
      by_cases hq : q run = true
      · rw [countP_cons_of_pos hq, countP_cons_of_pos hq, ih]
        omega
      · have hnone : ∀ run ∈ runs, ¬ q run = true := fun run hrun h => hq (hfirst run hrun h)
        rw [countP_cons_of_neg hq, countP_cons_of_neg hq, countP_eq_zero.mpr hnone,
          countP_eq_zero.mpr fun run hrun => hnone run (mem_of_mem_take hrun)]
        rfl

theorem countP_candidates (h : ∀ runs, (call.order.rows runs).Pairwise fun a b => q b → q a) :
    (s.candidates limit call db).countP q = min limit ((s.expired call.clock db).countP q) := by
  have hone : ∀ runs, ((call.order.rows runs).take limit).countP q =
      min limit (runs.countP q) := fun runs => by
    rw [countP_take (h runs), (call.order.perm runs).countP_eq]
  simp only [candidates, expired, hone, countP_flatMap, Function.comp_def]
  generalize db.projects = projects
  induction projects with
  | nil => rfl
  | cons project projects ih =>
    simp only [map_cons, sum_cons]
    omega

theorem countP_candidates_le :
    (s.candidates limit call db).countP q ≤ (s.expired call.clock db).countP q := by
  have hone : ∀ runs, ((call.order.rows runs).take limit).countP q ≤ runs.countP q :=
    fun runs => (call.order.perm runs).countP_eq q ▸ (take_sublist _ _).countP_le
  refine (hone _).trans ?_
  simp only [expired, countP_flatMap]
  exact sum_le_sum fun project _ => hone _

theorem candidates_subset (h : run ∈ s.candidates limit call db) :
    run ∈ s.expired call.clock db := by
  have hcount := (countP_pos_iff.mpr ⟨run, h, beq_self_eq_true run⟩).trans_le countP_candidates_le
  obtain ⟨other, hother, heq⟩ := countP_pos_iff.mp hcount
  exact eq_of_beq heq ▸ hother

/-! ## Draining -/

theorem purge_cases (h : s.enabled = true) (limit? : Option Int) (call : Call) (db : Db) :
    ∃ roots, s.purgeExpiredRuns limit? call db = (db.delete roots, roots.length) ∧
      (∀ root ∈ roots, s.Purgeable call.clock db root) ∧
      roots ⊆ s.candidates (s.limit limit?) call db ∧
      ∀ root ∈ s.candidates (s.limit limit?) call db, root ∈ roots ∨ db.blocked root = true := by
  refine ⟨_, by rw [purgeExpiredRuns, if_pos h], fun root hroot => ?_, filter_sublist.subset,
    fun root hroot => ?_⟩
  · have hroot := mem_filter.mp hroot
    exact ⟨candidates_subset hroot.1, by simpa using hroot.2⟩
  · by_cases hblocked : db.blocked root <;> simp_all

/-- What the drain must not meet: a whole batch of blocked roots before a purgeable one. -/
def Clear (s : RetentionService) (limit? : Option Int) (clock : Nat → Int) (db : Db) : Prop :=
  ∀ root, s.Purgeable clock db root →
    s.enabled = true ∧ s.blockedBefore clock db root < s.limit limit?

/-- With the condition, a call that finds nothing leaves nothing. -/
theorem Clear.done (h : s.Clear limit? call.clock db)
    (hblocked : ∀ root ∈ s.candidates (s.limit limit?) call db, db.blocked root = true) :
    ¬ s.Purgeable call.clock db root := by
  intro hroot
  have hless := (h root hroot).2
  have hchosen : (s.candidates (s.limit limit?) call db).countP (·.finished ≤ root.finished) =
      min (s.limit limit?) ((s.expired call.clock db).countP (·.finished ≤ root.finished)) :=
    countP_candidates fun runs => (call.order.sorted runs).imp (by grind)
  have hall : (s.candidates (s.limit limit?) call db).countP (·.finished ≤ root.finished) ≤
      s.blockedBefore call.clock db root := by
    refine (countP_mono_left fun run hrun hle => ?_).trans countP_candidates_le
    simp_all
  have hmore : s.blockedBefore call.clock db root <
      (s.expired call.clock db).countP (·.finished ≤ root.finished) := by
    obtain ⟨front, back, heq⟩ := append_of_mem hroot.1
    have hle : ∀ runs : List Run, runs.countP (fun run => db.blocked run &&
        decide (run.finished ≤ root.finished)) ≤ runs.countP (·.finished ≤ root.finished) :=
      fun runs => countP_mono_left (by simp)
    simp only [blockedBefore, heq, countP_append, countP_cons, hroot.2]
    grind
  omega

theorem drain_clock (h : s.drain limit? calls db = some (after, call)) : call ∈ calls := by
  induction calls generalizing db with
  | nil => cases h
  | cons first calls ih =>
    rw [drain] at h
    split at h
    · cases h
      exact mem_cons_self
    · exact mem_cons_of_mem _ (ih h)

theorem Clear.delete (h : s.Clear limit? clock db) (hroots : Roots db roots) :
    s.Clear limit? clock (db.delete roots) := by
  intro root hroot
  rw [blockedBefore_delete hroots]
  exact h root ((purgeable_delete hroots).mp hroot).1

theorem Clear.drained (h : s.Clear limit? call.clock db)
    (hclock : calls.Pairwise fun a b => ∀ id, a.clock id ≤ b.clock id)
    (hdrain : s.drain limit? calls db = some (after, call)) :
    run ∈ after.runs ↔ run ∈ db.runs ∧ ¬ s.Doomed call.clock db run := by
  induction calls generalizing db with
  | nil => cases hdrain
  | cons first calls ih =>
    rw [drain] at hdrain
    by_cases hon : s.enabled = true
    case neg =>
      rw [purgeExpiredRuns, if_neg hon] at hdrain
      cases hdrain
      exact (and_iff_left fun ⟨root, hroot, _⟩ => hon (h root hroot).1).symm
    obtain ⟨roots, hpurge, hroots, -, hrest⟩ := purge_cases hon limit? first db
    rw [hpurge] at hdrain
    cases roots with
    | nil =>
      cases hdrain
      rw [Db.mem_delete]
      exact and_congr_right fun _ => iff_of_true (by simp [Db.mem_tree]) fun ⟨root, hroot, _⟩ =>
        h.done (fun root hmem => (hrest root hmem).resolve_left not_mem_nil) hroot
    | cons root roots =>
      have hlater : ∀ other ∈ root :: roots, s.Purgeable call.clock db other :=
        fun other hother => (hroots other hother).imp_left
          (mem_expired_mono (rel_of_pairwise_cons hclock (drain_clock hdrain)))
      rw [ih (h.delete (roots_of_purgeable hlater)) hclock.of_cons hdrain]
      exact doomed_delete hlater

theorem delete_length (hroots : ∀ other ∈ root :: roots, s.Purgeable clock db other) :
    (db.delete (root :: roots)).runs.length < db.runs.length := by
  refine length_filter_lt_length_iff_exists.mpr
    ⟨root, (top_of_mem_expired (hroots root mem_cons_self).1).1, ?_⟩
  simp [Db.tree]

theorem drain_ends (h : db.runs.length < calls.length) :
    (s.drain limit? calls db).isSome = true := by
  induction calls generalizing db with
  | nil => cases h
  | cons first calls ih =>
    rw [drain]
    by_cases hon : s.enabled = true
    case neg =>
      rw [purgeExpiredRuns, if_neg hon]
      rfl
    obtain ⟨roots, hpurge, hroots, -⟩ := purge_cases hon limit? first db
    rw [hpurge]
    cases roots with
    | nil => rfl
    | cons root roots =>
      exact ih (Nat.lt_of_lt_of_le (delete_length hroots) (Nat.le_of_lt_succ h))

/-- An order with the blocked roots before the others of their time. -/
def blockedFirst (db : Db) : OrderBy where
  rows := insertionSort fun a b =>
    toLex (a.finished, !db.blocked a) ≤ toLex (b.finished, !db.blocked b)
  perm := perm_insertionSort _
  sorted runs := (pairwise_insertionSort _ runs).imp (by grind [Prod.Lex.toLex_le_toLex])

/-- Behind a whole batch of blocked roots a root is not chosen. -/
theorem notMem_candidates (hroot : s.Purgeable clock db root)
    (h : s.limit limit? ≤ s.blockedBefore clock db root) :
    root ∉ s.candidates (s.limit limit?) ⟨clock, blockedFirst db⟩ db := by
  intro hmem
  let key := fun run : Run => toLex (run.finished, !db.blocked run)
  have hchosen : (s.candidates (s.limit limit?) ⟨clock, blockedFirst db⟩ db).countP
      (key · < key root) = min (s.limit limit?) ((s.expired clock db).countP (key · < key root)) :=
    countP_candidates fun runs => (pairwise_insertionSort _ runs).imp (by grind)
  have hmore : s.blockedBefore clock db root ≤ (s.expired clock db).countP (key · < key root) := by
    refine countP_mono_left fun run _ => ?_
    simp only [key, hroot.2, Prod.Lex.toLex_lt_toLex, Bool.and_eq_true, decide_eq_true_eq]
    rintro ⟨hblocked, hle⟩
    exact hle.lt_or_eq.imp_right fun heq => ⟨heq, by simp [hblocked]⟩
  have hless : (s.candidates (s.limit limit?) ⟨clock, blockedFirst db⟩ db).countP
      (key · < key root) < s.limit limit? :=
    (countP_lt_length_iff.mpr ⟨root, hmem, by simp⟩).trans_le (length_take_le _ _)
  omega

/-- Such a root is there when the drain ends. -/
theorem drain_stuck (limit? : Option Int) (hroot : s.Purgeable clock db root)
    (h : s.enabled = true → s.limit limit? ≤ s.blockedBefore clock db root) :
    ∃ calls after last, (∀ call ∈ calls, call.clock = clock) ∧
      s.drain limit? calls db = some (after, last) ∧ root ∈ after.runs := by
  induction hsize : db.runs.length using Nat.strong_induction_on generalizing db with
  | _ n ih =>
  let call : Call := ⟨clock, blockedFirst db⟩
  have hmem := (top_of_mem_expired hroot.1).1
  by_cases hon : s.enabled = true
  case neg => exact ⟨[call], db, call, by simp [call], by simp [drain, purgeExpiredRuns, hon], hmem⟩
  obtain ⟨roots, hpurge, hroots, hsub, -⟩ := purge_cases hon limit? call db
  have hchosen := roots_of_purgeable hroots
  have hstays : root ∈ (db.delete roots).runs := Db.mem_delete.mpr ⟨hmem, fun hgone =>
    notMem_candidates hroot (h hon)
      (hsub ((Db.mem_tree_top (top_of_mem_expired hroot.1).2).mp hgone))⟩
  cases roots with
  | nil => exact ⟨[call], _, call, by simp [call], by simp [drain, hpurge], hstays⟩
  | cons other roots =>
    obtain ⟨calls, after, last, hclock, hdrain, hafter⟩ := ih _
      (hsize ▸ delete_length hroots) ((purgeable_delete hchosen).mpr ⟨hroot, hstays⟩)
      (by rwa [blockedBefore_delete hchosen]) rfl
    refine ⟨call :: calls, after, last, ?_, by simp [drain, hpurge, hdrain], hafter⟩
    simpa [call] using hclock

/-- A drain deletes exactly the settled old trees unless it meets a whole batch of blocked roots
before a purgeable one. It always ends, and no call deletes a live run. -/
theorem drain_exact_iff (s : RetentionService) (limit? : Option Int) (clock : Nat → Int) (db : Db) :
    ((∀ calls after last, calls.Pairwise (fun a b => ∀ id, a.clock id ≤ b.clock id) →
        s.drain limit? calls db = some (after, last) → last.clock = clock →
        ∀ run, run ∈ after.runs ↔ run ∈ db.runs ∧ ¬ s.Doomed clock db run) ↔
      s.Clear limit? clock db) ∧
    (∀ calls, db.runs.length < calls.length → (s.drain limit? calls db).isSome = true) ∧
    ∀ call, ∀ run ∈ db.runs, run ∉ (s.purgeExpiredRuns limit? call db).1.runs →
      run.status.isTerminal = true := by
  refine ⟨⟨fun h root hroot => ?_, ?_⟩, fun _ => drain_ends, fun call run hrun hgone => ?_⟩
  · by_contra hblocked
    obtain ⟨calls, after, last, hclock, hdrain, hafter⟩ := drain_stuck limit? hroot (by grind)
    refine ((h calls after last ?_ hdrain (hclock _ (drain_clock hdrain)) root).mp hafter).2
      ⟨root, hroot, .inl rfl⟩
    exact pairwise_of_forall_mem_list fun a ha b hb id => by rw [hclock a ha, hclock b hb]
  · rintro h calls after last hclock hdrain rfl run
    exact h.drained hclock hdrain
  · by_cases hon : s.enabled = true
    case neg =>
      rw [purgeExpiredRuns, if_neg hon] at hgone
      exact absurd hrun hgone
    obtain ⟨roots, hpurge, hroots, -⟩ := purge_cases hon limit? call db
    rw [hpurge, Db.mem_delete] at hgone
    obtain ⟨root, hroot, hin⟩ := Db.mem_tree.mp (not_not.mp fun hkept => hgone ⟨hrun, hkept⟩)
    by_contra hlive
    have := Db.blocked_eq_true.mpr ⟨run, hin, by simpa using hlive⟩
    exact absurd this (by simp [(hroots root hroot).2])

/-! ## Any calls -/

/-- The rows after calls with any limits, at any times. -/
def purges (s : RetentionService) (calls : List (Option Int × Call)) (db : Db) : Db :=
  calls.foldl (fun db call => (s.purgeExpiredRuns call.1 call.2 db).1) db

theorem purge_subset (h : run ∈ (s.purgeExpiredRuns limit? call db).1.runs) : run ∈ db.runs := by
  rw [purgeExpiredRuns] at h
  split at h
  · exact (Db.mem_delete.mp h).1
  · exact h

theorem purges_subset {calls : List (Option Int × Call)} (h : run ∈ (s.purges calls db).runs) :
    run ∈ db.runs := by
  induction calls generalizing db with
  | nil => exact h
  | cons call calls ih => exact purge_subset (ih h)

/-- **Trees go whole**: whatever calls are made, a run stays exactly as long as its parent. -/
theorem purges_whole (s : RetentionService) (calls : List (Option Int × Call)) (db : Db) :
    ∀ run ∈ db.runs, ∀ parent ∈ db.runs, run.parentRunId = some parent.id →
      (run ∈ (s.purges calls db).runs ↔ parent ∈ (s.purges calls db).runs) := by
  intro run hrun parent hparent hchild
  induction calls generalizing db with
  | nil => exact iff_of_true hrun hparent
  | cons call calls ih =>
    change run ∈ (s.purges calls (s.purgeExpiredRuns call.1 call.2 db).1).runs ↔
      parent ∈ (s.purges calls (s.purgeExpiredRuns call.1 call.2 db).1).runs
    by_cases hon : s.enabled = true
    case neg =>
      rw [purgeExpiredRuns, if_neg hon]
      exact ih db hrun hparent
    obtain ⟨roots, hpurge, hroots, -⟩ := purge_cases hon call.1 call.2 db
    rw [hpurge]
    have hboth := (roots_of_purgeable hroots).mem_tree_parent hparent hrun hchild
    by_cases hgone : parent ∈ db.tree roots
    · exact iff_of_false (mt purges_subset fun h => (Db.mem_delete.mp h).2 (hboth.mpr hgone))
        (mt purges_subset fun h => (Db.mem_delete.mp h).2 hgone)
    · exact ih _ (Db.mem_delete.mpr ⟨hrun, mt hboth.mp hgone⟩) (Db.mem_delete.mpr ⟨hparent, hgone⟩)

end RetentionService

/-! ## One blocked root and a batch of one -/

def stored : OrderBy where
  rows := insertionSort fun a b => a.finished ≤ b.finished
  perm := perm_insertionSort _
  sorted := pairwise_insertionSort _

/-- An old root with a live child, and a later root that has settled. -/
def twoRoots : Db where
  projects := [⟨0, some 1⟩]
  runs := [⟨0, 0, none, .failed, some 0⟩, ⟨1, 0, some 0, .running, none⟩,
    ⟨2, 0, none, .completed, some 1⟩]
  projectIds := by decide
  runIds := by decide

theorem drain_stops : ¬ ∀ calls after last,
    calls.Pairwise (fun a b => ∀ id, a.clock id ≤ b.clock id) →
      ({} : RetentionService).drain (some 1) calls twoRoots = some (after, last) →
      ∀ run, run ∈ after.runs ↔
        run ∈ twoRoots.runs ∧ ¬ ({} : RetentionService).Doomed last.clock twoRoots run := by
  intro h
  let call : Call := ⟨fun _ => 86400002, stored⟩
  have hdrain : ({} : RetentionService).drain (some 1) [call] twoRoots =
    some (twoRoots, call) := rfl
  have hlater := (h _ _ _ (pairwise_singleton _ _) hdrain
    ⟨2, 0, none, .completed, some 1⟩).mp (by decide)
  exact hlater.2 ⟨_, ⟨by decide, by decide⟩, .inl rfl⟩

/-- The blocked root and its child stay, the later root goes. -/
theorem purges_whole_twoRoots :
    (({} : RetentionService).purges [(none, ⟨fun _ => 86400002, stored⟩)] twoRoots).runs =
      [⟨0, 0, none, .failed, some 0⟩, ⟨1, 0, some 0, .running, none⟩] ∧
    (⟨1, 0, some 0, .running, none⟩ ∈
        (({} : RetentionService).purges [(none, ⟨fun _ => 86400002, stored⟩)] twoRoots).runs ↔
      ⟨0, 0, none, .failed, some 0⟩ ∈
        (({} : RetentionService).purges [(none, ⟨fun _ => 86400002, stored⟩)] twoRoots).runs) :=
  ⟨rfl, RetentionService.purges_whole _ _ _ _ (by decide) _ (by decide) rfl⟩

end Catamorphic.Execution.Retention
