import Catamorphic.Execution.Jobs
import Catamorphic.Lib.Lines

/-!
# Many jobs in one statement

`enqueueMany` is to leave what enqueuing its jobs one after the other leaves. A row is compared
by what a caller can tell of it: its tenant and key, its payload, priority and status. Of the
jobs with one key the batch keeps the last, while the first is the one that enqueuing them in
turn puts there.
-/

namespace Catamorphic.Execution.Jobs

open List Option

/-- What is compared of a row. -/
structure Shown where
  tenantId : String
  dedupeKey : Option String
  payload : String
  priority : Int
  status : Status
  deriving DecidableEq

def Job.shown (job : Job) : Shown :=
  ⟨job.tenantId, job.dedupeKey, job.payload, job.priority, job.status⟩

def Job.key (job : Job) : Option (String × String) := job.dedupeKey.map (job.tenantId, ·)

/-- The row under a key. -/
def World.rowOf (w : World) (key : String × String) : Option Entry :=
  w.jobs.find? (·.job.key = some key)

/-- The rows that have no key, in the order they were inserted. -/
def World.unkeyed (w : World) : List Shown :=
  (w.jobs.filter (·.job.key.isNone)).map (·.job.shown)

/-- The row a job is left with: the one under its key, or its own. -/
def World.jobFor (w : World) (job : String × NewJob) : Option Job :=
  match job.2.key with
  | some key => (w.rowOf key).map (·.job)
  | none => some (job.2.row job.1 w.now)

/-- `enqueue` for each of the jobs in turn, with the rows returned. -/
def World.enqueueEach (w : World) : List (String × NewJob) → World × List (Option Job)
  | [] => (w, [])
  | job :: jobs =>
    let w' := w.enqueue job.1 job.2
    ((w'.enqueueEach jobs).1, w'.jobFor job :: (w'.enqueueEach jobs).2)

/-- **The batch leaves what its jobs leave one after the other**: the same rows, and for each
job the row that enqueuing it returned. -/
def SameAsEach (w : World) (jobs : List (String × NewJob)) : Prop :=
  ∃ w', w.enqueueMany jobs = some w' ∧
    (∀ key, (w'.rowOf key).map (·.job.shown) =
      ((w.enqueueEach jobs).1.rowOf key).map (·.job.shown)) ∧
    w'.unkeyed = (w.enqueueEach jobs).1.unkeyed ∧
    jobs.map (fun job => (w'.jobFor job).map (·.shown)) =
      (w.enqueueEach jobs).2.map (Option.map (·.shown))

/-- The jobs with this key. -/
def withKey (jobs : List (String × NewJob)) (key : String × String) : List (String × NewJob) :=
  jobs.filter (·.2.key = some key)

/-- The first and the last job with a key put the same there. -/
structure Agreeing (w : World) (jobs : List (String × NewJob)) : Prop where
  /-- The empty key is not collapsed: it may come once for a tenant. -/
  empty : ∀ tenantId, (withKey jobs (tenantId, "")).length ≤ 1
  /-- Where no row has the key, the first and the last would insert the same. -/
  absent : ∀ key first last, w.rowOf key = none → (withKey jobs key).head? = some first →
    (withKey jobs key).getLast? = some last →
      first.2.payload = last.2.payload ∧ first.2.priority.getD 0 = last.2.priority.getD 0
  /-- Where its row has ended, they would revive it with the same payload. -/
  ended : ∀ key entry first last, w.rowOf key = some entry → entry.job.status.isTerminal →
    (withKey jobs key).head? = some first → (withKey jobs key).getLast? = some last →
      first.2.payload = last.2.payload

variable {w : World} {jobs : List (String × NewJob)} {key : String × String} {new : NewJob}
  {entry : Entry} {job : String × NewJob}

/-! ## One job -/

theorem sameKey_iff {job : Job} :
    sameKey new job ↔ ∃ key, new.key = some key ∧ job.key = some key := by
  cases hnew : new.dedupeKey with
  | none => simp [sameKey, NewJob.key, hnew]
  | some dedupeKey =>
    simp only [sameKey, NewJob.key, Job.key, hnew, isSome_some, Bool.true_and,
      Bool.and_eq_true, decide_eq_true_eq, some.injEq,
      map_eq_some_iff, exists_eq_left', Prod.mk.injEq]
    exact ⟨fun ⟨htenant, hkey⟩ => ⟨_, hkey, htenant, rfl⟩,
      fun ⟨_, hkey, htenant, heq⟩ => ⟨htenant, heq ▸ hkey⟩⟩

theorem sameKey_of_key (hnew : new.key = some key) {job : Job} :
    sameKey new job = decide (job.key = some key) := by
  rw [Bool.eq_iff_iff, sameKey_iff, decide_eq_true_eq, hnew]
  exact ⟨fun ⟨_, heq, hjob⟩ => heq ▸ hjob, fun hjob => ⟨key, rfl, hjob⟩⟩

@[simp] theorem reviveTerminalJob_key (entry : Entry) (new : NewJob) (now : Nat) :
    (entry.reviveTerminalJob new now).job.key = entry.job.key := by
  rw [Entry.reviveTerminalJob]
  split <;> rfl

/-- A row that is live stays as it is. -/
theorem reviveTerminalJob_live (h : entry.job.status.isTerminal = false)
    (new : NewJob) (now : Nat) : entry.reviveTerminalJob new now = entry := by
  rw [Entry.reviveTerminalJob, h, if_neg Bool.false_ne_true]

theorem reviveTerminalJob_status (entry : Entry) (new : NewJob) (now : Nat) :
    (entry.reviveTerminalJob new now).job.status.isTerminal = false := by
  rw [Entry.reviveTerminalJob]
  split
  · rfl
  · rename_i h
    simpa using h

@[simp] theorem enqueue_now (w : World) (id : String) (new : NewJob) :
    (w.enqueue id new).now = w.now := by
  rw [World.enqueue]
  split <;> rfl

/-- What is under the key after a job with it: its row revived or kept, or a new one. -/
def placed (w : World) (row : Option Entry) (job : String × NewJob) : Entry :=
  match row with
  | some entry => entry.reviveTerminalJob job.2 w.now
  | none => ⟨job.2.row job.1 w.now, [], 0, 0⟩

theorem placed_status (w : World) (row : Option Entry) (job : String × NewJob) :
    (placed w row job).job.status.isTerminal = false := by
  cases row with
  | none => rfl
  | some entry => exact reviveTerminalJob_status entry job.2 w.now

theorem any_sameKey (hnew : new.key = some key) :
    (w.jobs.any fun entry => sameKey new entry.job) = (w.rowOf key).isSome := by
  simp only [sameKey_of_key hnew, World.rowOf, isSome_find?]

theorem rowOf_key (h : w.rowOf key = some entry) : entry.job.key = some key := by
  simpa using List.find?_some h

theorem rowOf_insert (entry : Entry) : World.rowOf { w with jobs := w.jobs ++ [entry] } key =
      (w.rowOf key).or (if entry.job.key = some key then some entry else none) := by
  rw [World.rowOf, List.find?_append, ← World.rowOf, List.find?_singleton]
  simp only [decide_eq_true_eq]

theorem rowOf_revive {newKey : String × String} (hnew : new.key = some newKey) :
    (w.updateWhere (sameKey new) fun entry => entry.reviveTerminalJob new w.now).rowOf key =
      (w.rowOf key).map fun entry =>
        if newKey = key then entry.reviveTerminalJob new w.now else entry := by
  have hkeep : (fun entry : Entry => decide (entry.job.key = some key)) ∘
      (fun entry => if sameKey new entry.job then entry.reviveTerminalJob new w.now else entry) =
      fun entry => decide (entry.job.key = some key) := by
    funext entry
    simp only [Function.comp_apply]
    split <;> simp
  rw [World.rowOf, World.updateWhere, List.find?_map, hkeep, ← World.rowOf]
  cases hrow : w.rowOf key with
  | none => rfl
  | some entry =>
    rw [map_some, map_some, sameKey_of_key hnew, rowOf_key hrow]
    by_cases hkey : newKey = key
    · simp [hkey]
    · simp [hkey, Ne.symm hkey]

/-- **A job changes the row of its key** and no other. -/
theorem rowOf_enqueue (id : String) (new : NewJob) : (w.enqueue id new).rowOf key =
      if new.key = some key then some (placed w (w.rowOf key) (id, new)) else w.rowOf key := by
  have hrow : (new.row id w.now).key = new.key := rfl
  rw [World.enqueue]
  cases hnew : new.key with
  | none =>
    have hno : (w.jobs.any fun entry => sameKey new entry.job) = false := by
      rw [List.any_eq_false]
      intro entry _ hsame
      obtain ⟨_, hsome, -⟩ := sameKey_iff.mp hsame
      rw [hnew] at hsome
      cases hsome
    rw [hno, if_neg Bool.false_ne_true, rowOf_insert, hrow, hnew]
    simp
  | some newKey =>
    rw [any_sameKey hnew]
    cases hold : w.rowOf newKey with
    | none =>
      rw [isSome_none, if_neg Bool.false_ne_true, rowOf_insert, hrow, hnew]
      by_cases hkey : newKey = key
      · subst hkey
        simp [hold, placed]
      · simp [hkey]
    | some entry =>
      rw [isSome_some, if_pos rfl, rowOf_revive hnew]
      by_cases hkey : newKey = key
      · subst hkey
        simp [hold, placed]
      · simp [hkey]

/-- The rows without a key change by the jobs that have none. -/
theorem unkeyed_enqueue (id : String) (new : NewJob) : (w.enqueue id new).unkeyed =
      w.unkeyed ++ if new.key = none then [(new.row id w.now).shown] else [] := by
  have hrow : (new.row id w.now).key = new.key := rfl
  rw [World.enqueue]
  split
  · rename_i hany
    obtain ⟨entry, _, hsame⟩ := List.any_eq_true.mp hany
    obtain ⟨newKey, hnew, -⟩ := sameKey_iff.mp hsame
    have hkeep : (fun entry : Entry => entry.job.key.isNone) ∘ (fun entry =>
        if sameKey new entry.job then entry.reviveTerminalJob new w.now else entry) =
        fun entry => entry.job.key.isNone := by
      funext entry
      simp only [Function.comp_apply]
      split <;> simp
    rw [hnew, if_neg (some_ne_none _), append_nil, World.unkeyed, World.updateWhere,
      List.filter_map, hkeep, List.map_map]
    refine map_congr_left fun entry hentry => ?_
    have hnone : entry.job.key = none := by simpa using of_mem_filter hentry
    have hother : ¬ sameKey new entry.job := by
      rw [sameKey_of_key hnew, hnone, decide_eq_true_eq]
      exact nofun
    rw [Function.comp_apply, if_neg hother]
  · rw [World.unkeyed, filter_append, map_append, ← World.unkeyed]
    cases hnew : new.key <;> simp [hrow, hnew]

/-! ## A list of jobs -/

/-- The jobs enqueued one after the other. -/
def World.enqueueAll (w : World) (jobs : List (String × NewJob)) : World :=
  jobs.foldl (fun w job => w.enqueue job.1 job.2) w

theorem enqueueAll_cons (w : World) (job : String × NewJob) (jobs : List (String × NewJob)) :
    w.enqueueAll (job :: jobs) = (w.enqueue job.1 job.2).enqueueAll jobs := rfl

theorem enqueueEach_fst (w : World) (jobs : List (String × NewJob)) :
    (w.enqueueEach jobs).1 = w.enqueueAll jobs := by
  induction jobs generalizing w with
  | nil => rfl
  | cons job jobs ih => exact ih _

theorem withKey_cons (job : String × NewJob) (jobs : List (String × NewJob)) :
    withKey (job :: jobs) key = if job.2.key = some key then job :: withKey jobs key
      else withKey jobs key := by
  rw [withKey, filter_cons]
  simp only [decide_eq_true_eq, withKey]

/-- A row that is live is kept by whatever is enqueued. -/
theorem rowOf_enqueueAll_live (hrow : w.rowOf key = some entry)
    (hlive : entry.job.status.isTerminal = false) : (w.enqueueAll jobs).rowOf key = some entry := by
  induction jobs generalizing w with
  | nil => exact hrow
  | cons job jobs ih =>
    refine ih ?_
    rw [rowOf_enqueue, hrow]
    split
    · rw [placed, reviveTerminalJob_live hlive]
    · rfl

/-- **The first job with a key decides** what is under it. -/
theorem rowOf_enqueueAll (w : World) (jobs : List (String × NewJob)) (key : String × String) :
    (w.enqueueAll jobs).rowOf key = match (withKey jobs key).head? with
      | some first => some (placed w (w.rowOf key) first)
      | none => w.rowOf key := by
  induction jobs generalizing w with
  | nil => rfl
  | cons job jobs ih =>
    rw [withKey_cons]
    by_cases hkey : job.2.key = some key
    · have hrow : (w.enqueue job.1 job.2).rowOf key = some (placed w (w.rowOf key) job) := by
        rw [rowOf_enqueue, if_pos hkey]
      rw [if_pos hkey, List.head?_cons, enqueueAll_cons]
      exact rowOf_enqueueAll_live hrow (placed_status w (w.rowOf key) job)
    · have hrow : (w.enqueue job.1 job.2).rowOf key = w.rowOf key := by
        rw [rowOf_enqueue, if_neg hkey]
      rw [if_neg hkey, enqueueAll_cons, ih, hrow]
      simp only [placed, enqueue_now]

theorem unkeyed_enqueueAll (w : World) (jobs : List (String × NewJob)) :
    (w.enqueueAll jobs).unkeyed = w.unkeyed ++
      (jobs.filter (·.2.key = none)).map fun job => (job.2.row job.1 w.now).shown := by
  induction jobs generalizing w with
  | nil => simp [World.enqueueAll]
  | cons job jobs ih =>
    rw [enqueueAll_cons, ih, unkeyed_enqueue, enqueue_now, filter_cons]
    by_cases hkey : job.2.key = none <;> simp [hkey]

theorem enqueueAll_now (w : World) (jobs : List (String × NewJob)) :
    (w.enqueueAll jobs).now = w.now := by
  induction jobs generalizing w with
  | nil => rfl
  | cons job jobs ih =>
    rw [enqueueAll_cons, ih, enqueue_now]

/-- The row that a job's enqueue returned is the row it is left with. -/
theorem enqueueEach_snd (w : World) (jobs : List (String × NewJob)) :
    (w.enqueueEach jobs).2 = jobs.map (w.enqueueAll jobs).jobFor := by
  induction jobs generalizing w with
  | nil => rfl
  | cons job jobs ih =>
    rw [World.enqueueEach, map_cons, ih, enqueueAll_cons]
    simp only [World.jobFor, enqueueAll_now]
    cases hkey : job.2.key with
    | none => simp only [enqueue_now]
    | some key =>
      have hrow : (w.enqueue job.1 job.2).rowOf key = some (placed w (w.rowOf key) job) := by
        rw [rowOf_enqueue, if_pos hkey]
      simp only [rowOf_enqueueAll_live hrow (placed_status _ _ _), hrow]

/-! ## The collapsed list -/

theorem key_iff : new.key = some key ↔ new.tenantId = key.1 ∧ new.dedupeKey = some key.2 := by
  cases hnew : new.dedupeKey <;> simp [NewJob.key, hnew, Prod.ext_iff]

theorem collapseKey_isSome (hnew : new.key = some key) : new.collapseKey.isSome ↔ key.2 ≠ "" := by
  simp [NewJob.collapseKey, (key_iff.mp hnew).2]

/-- A tenant's id has no space, so the text is of one tenant and key. -/
theorem collapseKey_eq_iff {new other : NewJob} (hspace : ' ' ∉ new.tenantId.toList)
    (hspace' : ' ' ∉ other.tenantId.toList) (hnew : new.key = some key) (hkey : key.2 ≠ "") :
    other.collapseKey = new.collapseKey ↔ other.key = some key := by
  obtain ⟨htenant, hdedupe⟩ := key_iff.mp hnew
  have htext : new.collapseKey = some (key.1 ++ " " ++ key.2) := by
    simp [NewJob.collapseKey, hdedupe, hkey, htenant]
  constructor
  · intro h
    rw [htext] at h
    obtain ⟨otherKey, hother, heq⟩ := map_eq_some_iff.mp h
    have hlist := congrArg String.toList heq
    simp only [String.toList_append] at hlist
    rw [append_assoc, append_assoc] at hlist
    obtain ⟨hfirst, hsecond⟩ := Lines.append_cons_inj hspace' (htenant ▸ hspace) hlist
    rw [key_iff]
    exact ⟨String.toList_inj.mp hfirst,
      (filter_eq_some_iff.mp hother).1.trans (congrArg some (String.toList_inj.mp hsecond))⟩
  · intro h
    obtain ⟨htenant', hdedupe'⟩ := key_iff.mp h
    rw [htext]
    simp [NewJob.collapseKey, hdedupe', hkey, htenant']

/-- Tenants are named by ids without a space. -/
def TenantIds (jobs : List (String × NewJob)) : Prop :=
  ∀ job ∈ jobs, ' ' ∉ job.2.tenantId.toList

/-- A job is dropped where a later one has its key, other than the empty one. -/
theorem dropped_iff (h : TenantIds (job :: jobs)) :
    (job.2.collapseKey.isSome && jobs.any (·.2.collapseKey = job.2.collapseKey)) ↔
      ∃ key, job.2.key = some key ∧ key.2 ≠ "" ∧ withKey jobs key ≠ [] := by
  have hspace := h job mem_cons_self
  have hspaces : ∀ later ∈ jobs, ' ' ∉ later.2.tenantId.toList :=
    (forall_mem_cons.mp h).2
  rw [Bool.and_eq_true, List.any_eq_true]
  constructor
  · rintro ⟨hsome, later, hlater, heq⟩
    cases hkey : job.2.key with
    | none =>
      rw [NewJob.key, map_eq_none_iff] at hkey
      simp [NewJob.collapseKey, hkey] at hsome
    | some key =>
      have hne := (collapseKey_isSome hkey).mp hsome
      have hlaterKey := (collapseKey_eq_iff hspace (hspaces later hlater) hkey hne).mp
        (of_decide_eq_true heq)
      exact ⟨key, rfl, hne, ne_nil_of_mem (mem_filter.mpr ⟨hlater, decide_eq_true hlaterKey⟩)⟩
  · rintro ⟨key, hkey, hne, hsome⟩
    obtain ⟨later, hlater⟩ := exists_mem_of_ne_nil _ hsome
    obtain ⟨hlater, hlaterKey⟩ := mem_filter.mp hlater
    exact ⟨(collapseKey_isSome hkey).mpr hne, later, hlater, decide_eq_true
      ((collapseKey_eq_iff hspace (hspaces later hlater) hkey hne).mpr
        (of_decide_eq_true hlaterKey))⟩

/-- **Of the jobs with a key the last is left**; all are where the key is empty. -/
theorem withKey_collapse (h : TenantIds jobs) (key : String × String) :
    withKey (collapse jobs) key =
      if key.2 = "" then withKey jobs key else (withKey jobs key).getLast?.toList := by
  induction jobs with
  | nil => simp [collapse, withKey]
  | cons job jobs ih =>
    have hrest := ih (forall_mem_cons.mp h).2
    rw [collapse]
    split
    · rename_i hdropped
      obtain ⟨newKey, hnew, hne, hlater⟩ := (dropped_iff h).mp hdropped
      rw [hrest, withKey_cons, hnew]
      by_cases hkey : newKey = key
      · subst hkey
        rw [if_neg hne, if_neg hne, if_pos rfl, List.getLast?_cons_of_ne_nil hlater]
      · rw [if_neg fun heq => hkey (some.inj heq)]
    · rename_i hkept
      rw [withKey_cons, withKey_cons, hrest]
      by_cases hkey : job.2.key = some key
      · rw [if_pos hkey, if_pos hkey]
        split
        · rfl
        · rename_i hne
          have hnil : withKey jobs key = [] := by
            by_contra hlater
            exact hkept ((dropped_iff h).mpr ⟨key, hkey, hne, hlater⟩)
          rw [hnil]
          rfl
      · rw [if_neg hkey, if_neg hkey]

theorem unkeyed_collapse (jobs : List (String × NewJob)) :
    (collapse jobs).filter (·.2.key = none) = jobs.filter (·.2.key = none) := by
  induction jobs with
  | nil => rfl
  | cons job jobs ih =>
    rw [collapse]
    split
    · rename_i hdropped
      have hkey : job.2.key ≠ none := by
        intro hnone
        rw [NewJob.key, map_eq_none_iff] at hnone
        simp [NewJob.collapseKey, hnone] at hdropped
      rw [ih, filter_cons, if_neg (by simpa using hkey)]
    · rw [filter_cons, filter_cons, ih]

theorem clashing_iff (jobs : List (String × NewJob)) :
    clashing jobs ↔ ∃ key, 2 ≤ (withKey jobs key).length := by
  induction jobs with
  | nil => simp [clashing, withKey]
  | cons job jobs ih =>
    rw [clashing, Bool.or_eq_true, ih, Bool.and_eq_true, List.any_eq_true]
    constructor
    · rintro (⟨hsome, later, hlater, heq⟩ | ⟨key, hkey⟩)
      · obtain ⟨key, hkey⟩ := isSome_iff_exists.mp hsome
        have hlater' : later ∈ withKey jobs key :=
          mem_filter.mpr ⟨hlater, decide_eq_true ((of_decide_eq_true heq).trans hkey)⟩
        refine ⟨key, ?_⟩
        rw [withKey_cons, if_pos hkey, length_cons]
        have := length_pos_of_mem hlater'
        omega
      · refine ⟨key, ?_⟩
        rw [withKey_cons]
        split
        · rw [length_cons]
          omega
        · exact hkey
    · rintro ⟨key, hkey⟩
      rw [withKey_cons] at hkey
      split at hkey
      · rename_i hjob
        by_cases hlater : withKey jobs key = []
        · rw [hlater] at hkey
          simp at hkey
        · obtain ⟨later, hmem⟩ := exists_mem_of_ne_nil _ hlater
          obtain ⟨hmem, heq⟩ := mem_filter.mp hmem
          exact .inl ⟨by rw [hjob]; rfl, later, hmem,
            decide_eq_true ((of_decide_eq_true heq).trans hjob.symm)⟩
      · exact .inr ⟨key, hkey⟩

/-- The statement fails where the empty key comes twice for a tenant. -/
theorem clashing_collapse (h : TenantIds jobs) :
    clashing (collapse jobs) = false ↔ ∀ tenantId, (withKey jobs (tenantId, "")).length ≤ 1 := by
  rw [← Bool.not_eq_true, clashing_iff]
  constructor
  · intro hno tenantId
    by_contra hlength
    refine hno ⟨(tenantId, ""), ?_⟩
    rw [withKey_collapse h, if_pos rfl]
    omega
  · rintro hempty ⟨key, hkey⟩
    rw [withKey_collapse h] at hkey
    split at hkey
    · rename_i hnil
      have hlength : (withKey jobs key).length ≤ 1 := by
        have hlength := hempty key.1
        rw [← hnil] at hlength
        exact hlength
      omega
    · cases hlast : (withKey jobs key).getLast? <;> simp [hlast] at hkey

/-! ## The batch and its jobs in turn -/

theorem mem_withKey (h : job ∈ withKey jobs key) :
    job.2.key = some key := of_decide_eq_true (mem_filter.mp h).2

/-- Two jobs with one key put the same there, as the condition says. -/
theorem placed_shown_iff {first last : String × NewJob} (hfirst : first.2.key = some key)
    (hlast : last.2.key = some key) (row : Option Entry) :
    (placed w row first).job.shown = (placed w row last).job.shown ↔
      (row = none → first.2.payload = last.2.payload ∧
        first.2.priority.getD 0 = last.2.priority.getD 0) ∧
      ∀ entry, row = some entry → entry.job.status.isTerminal →
        first.2.payload = last.2.payload := by
  obtain ⟨htenant, hdedupe⟩ := key_iff.mp hfirst
  obtain ⟨htenant', hdedupe'⟩ := key_iff.mp hlast
  cases row with
  | none => simp [placed, Job.shown, NewJob.row, htenant, hdedupe, htenant', hdedupe']
  | some entry =>
    by_cases hended : entry.job.status.isTerminal
    · simp [placed, Entry.reviveTerminalJob, Job.shown, hended]
    · simp [placed, Entry.reviveTerminalJob, hended]

/-- The first and the last of a list that is collapsed or of one job. -/
theorem head?_collapse (h : TenantIds jobs)
    (hempty : ∀ tenantId, (withKey jobs (tenantId, "")).length ≤ 1) (key : String × String) :
    (withKey (collapse jobs) key).head? = (withKey jobs key).getLast? := by
  rw [withKey_collapse h]
  split
  · rename_i hnil
    have hlength : (withKey jobs key).length ≤ 1 := by
      have hlength := hempty key.1
      rw [← hnil] at hlength
      exact hlength
    match withKey jobs key, hlength with
    | [], _ => rfl
    | [_], _ => rfl
    | _ :: _ :: _, hlength => simp at hlength
  · cases (withKey jobs key).getLast? <;> rfl

/-- **`enqueueMany` leaves what enqueuing its jobs in turn leaves** exactly where, of the jobs with
one key, the first and the last put the same there. -/
theorem enqueueMany_sameAsEach (w : World) (jobs : List (String × NewJob))
    (htenants : TenantIds jobs) : SameAsEach w jobs ↔ Agreeing w jobs := by
  have hbatch : ∀ hempty : ∀ tenantId, (withKey jobs (tenantId, "")).length ≤ 1,
      w.enqueueMany jobs = some (w.enqueueAll (collapse jobs)) := by
    intro hempty
    rw [World.enqueueMany, (clashing_collapse htenants).mpr hempty, if_neg Bool.false_ne_true]
    rfl
  have hunkeyed : (w.enqueueAll (collapse jobs)).unkeyed = (w.enqueueAll jobs).unkeyed := by
    rw [unkeyed_enqueueAll, unkeyed_enqueueAll, unkeyed_collapse]
  constructor
  · rintro ⟨w', hw', hrows, -, -⟩
    have hempty : ∀ tenantId, (withKey jobs (tenantId, "")).length ≤ 1 := by
      rw [← clashing_collapse htenants]
      by_contra hclash
      rw [World.enqueueMany, if_pos (by simpa using hclash)] at hw'
      cases hw'
    rw [hbatch hempty] at hw'
    cases hw'
    have hsame : ∀ key first last, (withKey jobs key).head? = some first →
        (withKey jobs key).getLast? = some last →
        (placed w (w.rowOf key) first).job.shown = (placed w (w.rowOf key) last).job.shown := by
      intro key first last hfirst hlast
      have hrow := hrows key
      rw [enqueueEach_fst, rowOf_enqueueAll, rowOf_enqueueAll, head?_collapse htenants hempty,
        hfirst, hlast] at hrow
      exact (some.inj hrow).symm
    have hiff : ∀ key first last, (withKey jobs key).head? = some first →
        (withKey jobs key).getLast? = some last → _ := fun key first last hfirst hlast =>
      (placed_shown_iff (mem_withKey (mem_of_mem_head? hfirst))
        (mem_withKey (mem_of_getLast? hlast)) (w.rowOf key)).mp
          (hsame key first last hfirst hlast)
    exact ⟨hempty, fun key first last hrow hfirst hlast => (hiff key first last hfirst hlast).1
      hrow,
      fun key entry first last hrow hended hfirst hlast =>
        (hiff key first last hfirst hlast).2 entry hrow hended⟩
  · intro h
    have hrows : ∀ key, ((w.enqueueAll (collapse jobs)).rowOf key).map (·.job.shown) =
        ((w.enqueueAll jobs).rowOf key).map (·.job.shown) := by
      intro key
      rw [rowOf_enqueueAll, rowOf_enqueueAll, head?_collapse htenants h.empty]
      cases hfirst : (withKey jobs key).head? with
      | none =>
          rw [List.head?_eq_none_iff.mp hfirst]
          rfl
      | some first =>
          cases hlast : (withKey jobs key).getLast? with
          | none =>
            rw [List.getLast?_eq_none_iff.mp hlast] at hfirst
            cases hfirst
          | some last =>
            refine congrArg some ((placed_shown_iff (mem_withKey (mem_of_mem_head? hfirst))
              (mem_withKey (mem_of_getLast? hlast)) (w.rowOf key)).mpr ⟨?_, ?_⟩).symm
            · exact fun hrow => h.absent key first last hrow hfirst hlast
            · exact fun entry hrow hended => h.ended key entry first last hrow hended hfirst hlast
    refine ⟨_, hbatch h.empty, ?_, ?_, ?_⟩
    · rw [enqueueEach_fst]
      exact hrows
    · rw [enqueueEach_fst, hunkeyed]
    · rw [enqueueEach_snd, List.map_map]
      refine map_congr_left fun job _ => ?_
      simp only [Function.comp_apply, World.jobFor]
      cases job.2.key with
      | none => rfl
      | some key =>
          have hrow := hrows key
          simp only [Option.map_map]
          exact hrow

/-- A job of a run, under a key. -/
def keyed (payload : String) : NewJob where
  tenantId := "tenant"
  workflowRunId := "run"
  workflowStepAttemptId := none
  kind := .batchItem
  payload
  priority := none
  availableAt := none
  maxAttempts := none
  dedupeKey := some "item"

theorem enqueueMany_sameAsEach_alike :
    SameAsEach (empty 0) [("1", keyed "page"), ("2", keyed "page")] := by
  refine (enqueueMany_sameAsEach (empty 0) _ ?_).mpr ⟨?_, ?_, ?_⟩
  · intro job hjob
    simp only [mem_cons, not_mem_nil, or_false] at hjob
    rcases hjob with rfl | rfl <;> decide
  · intro tenantId
    simp [withKey, keyed, NewJob.key]
  · intro key first last _ hfirst hlast
    have hmem := (mem_filter.mp (mem_of_mem_head? hfirst)).1
    have hmem' := (mem_filter.mp (mem_of_getLast? hlast)).1
    simp only [mem_cons, not_mem_nil, or_false] at hmem hmem'
    rcases hmem with rfl | rfl <;> rcases hmem' with rfl | rfl <;> exact ⟨rfl, rfl⟩
  · intro key entry first last hrow
    cases hrow

/-- Of two jobs with one key the batch inserts the second. -/
theorem last_of_batch : ¬ SameAsEach (empty 0) [("1", keyed "first"), ("2", keyed "second")] := by
  rintro ⟨w', hw', hrows, -⟩
  cases hw'
  exact absurd (hrows ("tenant", "item")) (by decide)

end Catamorphic.Execution.Jobs
