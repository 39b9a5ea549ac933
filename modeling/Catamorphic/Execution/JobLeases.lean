import Catamorphic.Execution.Jobs
import Mathlib.Data.List.Nodup

/-!
# A job has one holder, and attempts are its failures

What each statement does to one row keeps one invariant of the row and of what happened to the
job: the grants have rising generations, the one that has not run out is the row's, and the
counters tell the failures of the code from the leases that ran out. A run is then one row's
invariant at every row.
-/

namespace Catamorphic.Execution.Jobs

open Runs List Option

theorem maxLeaseExpiries_pos : 0 < maxLeaseExpiries := by decide

/-- The grant is what the row says of its lease. -/
structure Grant.Matches (grant : Grant) (job : Job) : Prop where
  running : job.status = .running
  workerId : job.leasedBy = some grant.lease.workerId
  leaseToken : job.leaseToken = some grant.lease.leaseToken
  leaseGeneration : job.leaseGeneration = grant.lease.leaseGeneration
  expires : job.leaseExpiresAt = some grant.expires

/-- What the counters say where the job stands. -/
def Counted (job : Job) (failures : Nat) : Prop :=
  match job.status with
  | .pending => job.attempt = failures ∧ job.leaseExpiries < maxLeaseExpiries
  | .running => job.attempt = failures + 1 ∧ job.leaseExpiries < maxLeaseExpiries
  | .completed => job.attempt = failures + 1 ∧ job.leaseExpiries < maxLeaseExpiries
  | .failed =>
    job.leaseExpiries = maxLeaseExpiries ∨
      (job.attempt = failures ∧ job.maxAttempts ≤ failures ∧ job.leaseExpiries < maxLeaseExpiries)
  | .canceled => job.leaseExpiries < maxLeaseExpiries

/-- A job that waits or is leased is below the limit of its expiries. -/
theorem Counted.expiries_lt {job : Job} {failures : Nat} (h : Counted job failures)
    (hlive : ¬job.status.isTerminal = true) : job.leaseExpiries < maxLeaseExpiries := by
  unfold Counted at h
  split at h
  · exact h.2
  · exact h.2
  all_goals
    rename_i hstatus
    rw [hstatus] at hlive
    exact absurd rfl hlive

structure Sound (now : Nat) (entry : Entry) : Prop where
  /-- No generation of a grant is above the row's. -/
  generations : ∀ grant ∈ entry.grants, grant.lease.leaseGeneration ≤ entry.job.leaseGeneration
  rising : entry.grants.Pairwise fun earlier later =>
    earlier.lease.leaseGeneration < later.lease.leaseGeneration
  /-- A grant that has not run out is the row's. -/
  current : ∀ grant ∈ entry.grants, grant.unexpired now → grant.Matches entry.job
  /-- A leased row was granted. -/
  granted : entry.job.status = .running →
    ∃ grant ∈ entry.grants, grant.ended = false ∧ grant.Matches entry.job
  counted : Counted entry.job entry.failures
  lapses : entry.job.leaseExpiries = entry.lapses

variable {now : Nat} {entry : Entry} {change : Grant → Grant} {lease : Lease}

/-- Time alone only ends leases. -/
theorem Sound.later {later : Nat} (h : Sound now entry) (hle : now ≤ later) : Sound later entry
    where
  generations := h.generations
  rising := h.rising
  current := fun grant hgrant hunexpired =>
    h.current grant hgrant ⟨hunexpired.1, Nat.lt_of_le_of_lt hle hunexpired.2⟩
  granted := h.granted
  counted := h.counted
  lapses := h.lapses

/-- A generation was granted once. -/
theorem Sound.grant_unique (h : Sound now entry) {grant other : Grant}
    (hgrant : grant ∈ entry.grants) (hother : other ∈ entry.grants)
    (hsame : grant.lease.leaseGeneration = other.lease.leaseGeneration) : grant = other := by
  have hnodup : (entry.grants.map fun grant => grant.lease.leaseGeneration).Nodup :=
    pairwise_map.mpr (h.rising.imp fun {_ _} hlt => Nat.ne_of_lt hlt)
  exact inj_on_of_nodup_map hnodup hgrant hother hsame

/-! ## Changes of the row's own grant -/

/-- A changed grant is another one unchanged, or the row's, changed. -/
theorem mem_changeGrant {grant : Grant} (h : grant ∈ entry.changeGrant change) :
    (grant ∈ entry.grants ∧ grant.lease.leaseGeneration ≠ entry.job.leaseGeneration) ∨
      ∃ old ∈ entry.grants, old.lease.leaseGeneration = entry.job.leaseGeneration ∧
        grant = change old := by
  obtain ⟨old, hold, rfl⟩ := mem_map.mp h
  split
  · rename_i hgeneration
    exact .inr ⟨old, hold, hgeneration, rfl⟩
  · rename_i hgeneration
    exact .inl ⟨hold, hgeneration⟩

section

variable (h : Sound now entry)
include h

/-- A change that keeps the lease keeps the order of the generations. -/
theorem Sound.rising_changeGrant (hlease : ∀ grant, (change grant).lease = grant.lease) :
    (entry.changeGrant change).Pairwise fun earlier later =>
      earlier.lease.leaseGeneration < later.lease.leaseGeneration := by
  refine pairwise_map.mpr (h.rising.imp fun {earlier later} hlt => ?_)
  split <;> split <;> simpa only [hlease] using hlt

theorem Sound.generations_changeGrant
    (hlease : ∀ grant, (change grant).lease = grant.lease) : ∀ grant ∈ entry.changeGrant change,
      grant.lease.leaseGeneration ≤ entry.job.leaseGeneration := by
  intro grant hgrant
  rcases mem_changeGrant hgrant with ⟨hgrant, _⟩ | ⟨old, hold, _, rfl⟩
  · exact h.generations grant hgrant
  · rw [hlease]
    exact h.generations old hold

/-- Once the row's lease is given up no grant is left that has not run out. -/
theorem Sound.no_current : ∀ grant ∈ entry.endGrant, ¬grant.unexpired now := by
  intro grant hgrant hunexpired
  rcases mem_changeGrant hgrant with ⟨hgrant, hne⟩ | ⟨old, _, _, rfl⟩
  · exact hne (h.current grant hgrant hunexpired).leaseGeneration.symm
  · cases hunexpired.1

/-- Where the row stands under no lease no grant is left that has not run out. -/
theorem Sound.not_unexpired (hrunning : entry.job.status ≠ .running) :
    ∀ grant ∈ entry.grants, ¬grant.unexpired now :=
  fun grant hgrant hunexpired => hrunning (h.current grant hgrant hunexpired).running

/-- The row's lease ran out, so every grant did. -/
theorem Sound.all_expired (hexpired : entry.job.leaseExpiresAt.any (· ≤ now)) :
    ∀ grant ∈ entry.grants, ¬grant.unexpired now := by
  intro grant hgrant hunexpired
  rw [(h.current grant hgrant hunexpired).expires, any_some, decide_eq_true_eq] at hexpired
  exact absurd hunexpired.2 (Nat.not_lt.mpr hexpired)

/-- A row that leaves its lease, or had none, with the same generation. -/
theorem Sound.leave {job : Job} {grants : List Grant} {failures lapses : Nat}
    (hgeneration : job.leaseGeneration = entry.job.leaseGeneration)
    (hgrants : grants = entry.grants ∨ grants = entry.endGrant)
    (hnone : ∀ grant ∈ grants, ¬grant.unexpired now) (hstatus : job.status ≠ .running)
    (hcounted : Counted job failures) (hlapses : job.leaseExpiries = lapses) :
    Sound now ⟨job, grants, failures, lapses⟩ where
  generations := by
    rw [hgeneration]
    rcases hgrants with rfl | rfl
    · exact h.generations
    · exact h.generations_changeGrant fun _ => rfl
  rising := by
    rcases hgrants with rfl | rfl
    · exact h.rising
    · exact h.rising_changeGrant fun _ => rfl
  current := fun grant hgrant hunexpired => absurd hunexpired (hnone grant hgrant)
  granted := fun hrunning => absurd hrunning hstatus
  counted := hcounted
  lapses := hlapses

/-- A row whose lease columns, status and counters stay. -/
theorem Sound.keep {job : Job} (hstatus : job.status = entry.job.status)
    (hworker : job.leasedBy = entry.job.leasedBy) (htoken : job.leaseToken = entry.job.leaseToken)
    (hgeneration : job.leaseGeneration = entry.job.leaseGeneration)
    (hexpires : job.leaseExpiresAt = entry.job.leaseExpiresAt)
    (hattempt : job.attempt = entry.job.attempt) (hmax : job.maxAttempts = entry.job.maxAttempts)
    (hexpiries : job.leaseExpiries = entry.job.leaseExpiries) : Sound now { entry with job } where
  generations := by
    rw [hgeneration]
    exact h.generations
  rising := h.rising
  current := fun grant hgrant hunexpired => by
    obtain ⟨hrunning, hw, ht, hg, he⟩ := h.current grant hgrant hunexpired
    exact ⟨hstatus.trans hrunning, hworker.trans hw, htoken.trans ht, hgeneration.trans hg,
      hexpires.trans he⟩
  granted := fun hrunning => by
    obtain ⟨grant, hgrant, hended, hr, hw, ht, hg, he⟩ := h.granted (hstatus.symm.trans hrunning)
    exact ⟨grant, hgrant, hended, hstatus.trans hr, hworker.trans hw, htoken.trans ht,
      hgeneration.trans hg, hexpires.trans he⟩
  counted := by
    have hcounted := h.counted
    unfold Counted at hcounted ⊢
    rw [hstatus, hattempt, hexpiries, hmax]
    exact hcounted
  lapses := hexpiries.trans h.lapses

end

/-! ## Each statement on one row -/

theorem heldBy_iff {job : Job} :
    job.heldBy now lease = true ↔ job.status = .running ∧ job.leasedBy = some lease.workerId ∧
      job.leaseToken = some lease.leaseToken ∧ job.leaseGeneration = lease.leaseGeneration ∧
      ∃ expires, job.leaseExpiresAt = some expires ∧ now < expires := by
  simp only [Job.heldBy, Bool.and_eq_true, decide_eq_true_eq, and_assoc, Option.any_eq_true]

theorem sound_new {id : String} {new : NewJob} : Sound now ⟨new.row id now, [], 0, 0⟩ where
  generations := forall_mem_nil _
  rising := List.Pairwise.nil
  current := forall_mem_nil _
  granted := fun h => by cases h
  counted := ⟨rfl, maxLeaseExpiries_pos⟩
  lapses := rfl

section

variable (h : Sound now entry)
include h

theorem Sound.reviveTerminalJob (new : NewJob) : Sound now (entry.reviveTerminalJob new now) := by
  unfold Entry.reviveTerminalJob
  split
  · rename_i hterminal
    refine h.leave rfl (.inl rfl) (h.not_unexpired ?_) ?_ ⟨rfl, maxLeaseExpiries_pos⟩ rfl
    · intro hrunning
      rw [hrunning] at hterminal
      cases hterminal
    · intro hrunning
      cases hrunning
  · exact h

theorem Sound.claim (workerId leaseToken : String) (leaseSeconds : Nat) :
    Sound now (entry.claim now workerId leaseToken leaseSeconds) := by
  unfold Entry.claim
  split
  · rename_i hpending
    have hcounted := h.counted
    rw [Counted, hpending] at hcounted
    have hnot := h.not_unexpired (by rw [hpending]; nofun)
    refine ⟨?_, ?_, ?_, fun _ => ?_, ?_, h.lapses⟩
    · intro grant hgrant
      rcases mem_append.mp hgrant with hgrant | hgrant
      · exact Nat.le_succ_of_le (h.generations grant hgrant)
      · obtain rfl := mem_singleton.mp hgrant
        exact Nat.le_refl _
    · refine pairwise_append.mpr ⟨h.rising, pairwise_singleton _ _, ?_⟩
      intro earlier hearlier later hlater
      rw [mem_singleton.mp hlater]
      exact Nat.lt_succ_of_le (h.generations earlier hearlier)
    · intro grant hgrant hunexpired
      rcases mem_append.mp hgrant with hgrant | hgrant
      · exact absurd hunexpired (hnot grant hgrant)
      · rw [mem_singleton.mp hgrant]
        exact ⟨rfl, rfl, rfl, rfl, rfl⟩
    · exact ⟨_, mem_append_right _ mem_cons_self, rfl, rfl, rfl, rfl, rfl, rfl⟩
    · exact ⟨congrArg (· + 1) hcounted.1, hcounted.2⟩
  · exact h

theorem Sound.heartbeat (lease : Lease) (leaseSeconds : Nat) :
    Sound now (entry.heartbeat now lease leaseSeconds) := by
  unfold Entry.heartbeat
  split
  · rename_i hheld
    obtain ⟨hrunning, -⟩ := heldBy_iff.mp hheld
    refine ⟨h.generations_changeGrant fun _ => rfl, h.rising_changeGrant fun _ => rfl, ?_,
      fun _ => ?_, ?_, h.lapses⟩
    · intro grant hgrant hunexpired
      rcases mem_changeGrant hgrant with ⟨hgrant, hne⟩ | ⟨old, hold, hgeneration, rfl⟩
      · exact absurd (h.current grant hgrant hunexpired).leaseGeneration.symm hne
      · -- the row's own grant, by the order of the generations
        obtain ⟨granted, hgranted, _, hmatches⟩ := h.granted hrunning
        obtain rfl : granted = old := h.grant_unique hgranted hold
          (hmatches.leaseGeneration.symm.trans hgeneration.symm)
        exact ⟨hrunning, hmatches.workerId, hmatches.leaseToken, hmatches.leaseGeneration, rfl⟩
    · obtain ⟨granted, hgranted, hended, hmatches⟩ := h.granted hrunning
      refine ⟨{ granted with expires := now + leaseSeconds * 1000 }, ?_, hended, hrunning,
        hmatches.workerId, hmatches.leaseToken, hmatches.leaseGeneration, rfl⟩
      refine mem_map.mpr ⟨granted, hgranted, ?_⟩
      rw [if_pos hmatches.leaseGeneration.symm]
    · have hcounted := h.counted
      rw [Counted, hrunning] at hcounted
      rw [Counted, hrunning]
      exact hcounted
  · exact h

theorem Sound.complete (lease : Lease) : Sound now (entry.complete now lease) := by
  unfold Entry.complete
  split
  · rename_i hheld
    have hcounted := h.counted
    rw [Counted, (heldBy_iff.mp hheld).1] at hcounted
    exact h.leave rfl (.inr rfl) h.no_current nofun hcounted h.lapses
  · exact h

theorem Sound.fail (hostNow : Nat) (lease : Lease) (error : String)
    (retryAt : Option Nat) : Sound now (entry.fail now hostNow lease error retryAt) := by
  unfold Entry.fail
  split
  · rename_i hheld
    have hcounted := h.counted
    rw [Counted, (heldBy_iff.mp hheld).1] at hcounted
    have hattempt : entry.job.attempt = (entry.failures + 1 : Nat) := hcounted.1
    by_cases hretry : entry.job.attempt < entry.job.maxAttempts
    · simp only [hretry]
      exact h.leave rfl (.inr rfl) h.no_current nofun ⟨hattempt, hcounted.2⟩ h.lapses
    · simp only [hretry]
      refine h.leave rfl (.inr rfl) h.no_current nofun (.inr ⟨hattempt, ?_, hcounted.2⟩) h.lapses
      rw [← hattempt]
      exact Int.not_lt.mp hretry
  · exact h

theorem Sound.release (lease : Lease) (availableAt : Nat)
    (immediate : Bool) : Sound now (entry.release now lease availableAt immediate) := by
  unfold Entry.release
  split
  · rename_i hheld
    have hcounted := h.counted
    rw [Counted, (heldBy_iff.mp hheld).1] at hcounted
    refine h.leave rfl (.inr rfl) h.no_current nofun ⟨?_, hcounted.2⟩ h.lapses
    dsimp only
    omega
  · exact h

theorem Sound.cancel : Sound now (entry.cancel now) := by
  unfold Entry.cancel
  split
  · exact h
  · rename_i hlive
    have hexpiries := h.counted.expiries_lt hlive
    split
    · exact h.leave rfl (.inr rfl) h.no_current nofun hexpiries h.lapses
    · rename_i hrunning
      exact h.leave rfl (.inl rfl) (h.not_unexpired hrunning) nofun hexpiries h.lapses

theorem Sound.makeAvailable (availableAt : Nat) : Sound now (entry.makeAvailable availableAt) := by
  unfold Entry.makeAvailable
  split
  · exact h.keep rfl rfl rfl rfl rfl rfl rfl rfl
  · exact h

theorem Sound.makeJobAvailable (availableAt : Nat) :
    Sound now (entry.makeJobAvailable availableAt) := by
  unfold Entry.makeJobAvailable
  split
  · exact h.keep rfl rfl rfl rfl rfl rfl rfl rfl
  · exact h

theorem Sound.redrive (availableAt : Nat) : Sound now (entry.redrive availableAt) := by
  unfold Entry.redrive
  split
  · rename_i hfailed
    exact h.leave rfl (.inl rfl) (h.not_unexpired (by rw [hfailed]; nofun)) nofun
      ⟨rfl, maxLeaseExpiries_pos⟩ rfl
  · exact h

theorem Sound.requeueExpired : Sound now (entry.requeueExpired now) := by
  unfold Entry.requeueExpired
  split
  · rename_i hexpired
    obtain ⟨hrunning, hexpired⟩ := hexpired
    have hcounted := h.counted
    rw [Counted, hrunning] at hcounted
    dsimp only
    split
    · rename_i hlimit
      refine h.leave rfl (.inl rfl) (h.all_expired hexpired) nofun ⟨?_, hlimit⟩
        (congrArg (· + 1) h.lapses)
      dsimp only
      omega
    · rename_i hlimit
      refine h.leave rfl (.inl rfl) (h.all_expired hexpired) nofun (.inl ?_)
        (congrArg (· + 1) h.lapses)
      dsimp only
      omega
  · exact h

theorem Sound.claimExhaustion : Sound now (entry.claimExhaustion now) := by
  unfold Entry.claimExhaustion
  split
  · exact h.keep rfl rfl rfl rfl rfl rfl rfl rfl
  · exact h

theorem Sound.confirmExhaustionHandled : Sound now entry.confirmExhaustionHandled :=
  h.keep rfl rfl rfl rfl rfl rfl rfl rfl

theorem Sound.releaseExhaustionClaim : Sound now entry.releaseExhaustionClaim := by
  unfold Entry.releaseExhaustionClaim
  split
  · exact h.keep rfl rfl rfl rfl rfl rfl rfl rfl
  · exact h

end

/-! ## Runs -/

variable {w w' : World} {e : Event}

def Inv (w : World) : Prop := ∀ entry ∈ w.jobs, Sound w.now entry

/-- One update of the rows that a condition picks keeps every row. -/
theorem Inv.updateWhere (h : Inv w) (picks : Job → Bool) {change : Entry → Entry}
    (hchange : ∀ entry, Sound w.now entry → Sound w.now (change entry)) :
    Inv (w.updateWhere picks change) := by
  intro entry hentry
  obtain ⟨old, hold, rfl⟩ := mem_map.mp hentry
  split
  · exact hchange old (h old hold)
  · exact h old hold

theorem Inv.enqueue (h : Inv w) (id : String) (new : NewJob) : Inv (w.enqueue id new) := by
  unfold World.enqueue
  split
  · exact h.updateWhere _ fun _ hsound => hsound.reviveTerminalJob new
  · intro entry hentry
    rcases mem_append.mp hentry with hentry | hentry
    · exact h entry hentry
    · rw [mem_singleton.mp hentry]
      exact sound_new

theorem inv_step (h : Inv w) (hstep : step w e = some w') : Inv w' := by
  cases e with
  | tick now =>
    rw [step, ite_none_right_eq_some, some.injEq] at hstep
    obtain ⟨hle, rfl⟩ := hstep
    exact fun entry hentry => (h entry hentry).later hle
  | enqueue id new =>
    rw [step, ite_none_left_eq_some, some.injEq] at hstep
    obtain ⟨_, rfl⟩ := hstep
    exact h.enqueue id new
  | enqueueMany jobs =>
    rw [step, ite_none_left_eq_some, World.enqueueMany, ite_none_left_eq_some,
      some.injEq] at hstep
    obtain ⟨_, _, rfl⟩ := hstep
    exact List.foldlRecOn (collapse jobs) _ h fun _ hw job _ => Inv.enqueue hw job.1 job.2
  | claim jobIds workerId leaseToken leaseSeconds
  | claimById jobId placed workerId leaseToken leaseSeconds =>
    cases hstep
    exact h.updateWhere _ fun _ hsound => hsound.claim workerId leaseToken leaseSeconds
  | heartbeat jobId placed lease leaseSeconds =>
    cases hstep
    exact h.updateWhere _ fun _ hsound => hsound.heartbeat lease leaseSeconds
  | complete jobId lease =>
    cases hstep
    exact h.updateWhere _ fun _ hsound => hsound.complete lease
  | fail jobId hostNow lease error retryAt =>
    cases hstep
    exact h.updateWhere _ fun _ hsound => hsound.fail hostNow lease error retryAt
  | release jobId lease availableAt immediate =>
    cases hstep
    exact h.updateWhere _ fun _ hsound => hsound.release lease availableAt immediate
  | cancel _ | cancelByDedupeKey _ _ | cancelByDedupePrefix _ _ | cancelRun _ _ _ =>
    cases hstep
    exact h.updateWhere _ fun _ hsound => hsound.cancel
  | makeAvailable _ _ availableAt | makeRunAvailable _ availableAt =>
    cases hstep
    exact h.updateWhere _ fun _ hsound => hsound.makeAvailable _
  | makeJobsAvailable jobIds availableAt =>
    cases hstep
    exact h.updateWhere _ fun _ hsound => hsound.makeJobAvailable _
  | redrive tenantId jobId availableAt =>
    cases hstep
    exact h.updateWhere _ fun _ hsound => hsound.redrive _
  | requeueExpired jobIds =>
    cases hstep
    exact h.updateWhere _ fun _ hsound => hsound.requeueExpired
  | claimExhausted _ | claimExhaustionFor _ =>
    cases hstep
    exact h.updateWhere _ fun _ hsound => hsound.claimExhaustion
  | confirmExhaustionHandled jobId =>
    cases hstep
    exact h.updateWhere _ fun _ hsound => hsound.confirmExhaustionHandled
  | releaseExhaustionClaim jobId =>
    cases hstep
    exact h.updateWhere _ fun _ hsound => hsound.releaseExhaustionClaim

theorem inv_reachable {start : Nat} (h : Reach step anyEvent (empty start) w) : Inv w :=
  h.invariant (forall_mem_nil _) fun _ _ _ hinv _ => inv_step hinv

/-- The lease an operation of a holder shows, with its job. -/
def Event.shows : Event → Option (String × Lease)
  | .heartbeat jobId _ lease _ | .complete jobId lease | .fail jobId _ lease _ _
  | .release jobId lease _ _ => some (jobId, lease)
  | _ => none

/-- An update that changes something found a row to change. -/
theorem exists_of_updateWhere_ne {picks : Job → Bool} {change : Entry → Entry}
    (h : w.updateWhere picks change ≠ w) :
    ∃ entry ∈ w.jobs, picks entry.job = true ∧ change entry ≠ entry := by
  by_contra hnone
  refine h ?_
  have hsame : (w.jobs.map fun entry => if picks entry.job then change entry else entry) =
    w.jobs := by
    refine (map_congr_left fun entry hentry => ?_).trans (map_id _)
    by_cases hpicks : picks entry.job = true
    · rw [if_pos hpicks]
      by_contra hne
      exact hnone ⟨entry, hentry, hpicks, hne⟩
    · rw [if_neg hpicks]
      rfl
  rw [World.updateWhere, hsame]

/-- A holder's operation changes something only under the lease the row stands under. -/
theorem heldBy_of_shows {jobId : String}
    (hshows : e.shows = some (jobId, lease)) (hstep : step w e = some w') (hne : w' ≠ w) :
    ∃ entry ∈ w.jobs, entry.job.id = jobId ∧ entry.job.heldBy w.now lease = true := by
  cases e with
  | heartbeat jobId' placed lease' leaseSeconds =>
    cases hshows
    cases hstep
    obtain ⟨entry, hentry, hpicks, hchange⟩ := exists_of_updateWhere_ne hne
    refine ⟨entry, hentry, of_decide_eq_true (Bool.and_eq_true_iff.mp hpicks).1, ?_⟩
    by_contra hheld
    exact hchange (if_neg hheld)
  | complete jobId' lease' | fail jobId' hostNow lease' error retryAt
  | release jobId' lease' availableAt immediate =>
    cases hshows
    cases hstep
    obtain ⟨entry, hentry, hpicks, hchange⟩ := exists_of_updateWhere_ne hne
    refine ⟨entry, hentry, of_decide_eq_true hpicks, ?_⟩
    by_contra hheld
    exact hchange (if_neg hheld)
  | _ => cases hshows

/--
**Execution job leases.** In every state that any operations lead to, in any order and with
any clock, a job has at most one grant that has not run out, and it is the row's; its claims
have rising generations; a waiting job's attempts are the failures of its code, a leased or
completed one's are one more, for the last attempt; expiries are counted apart, only a failed
job has as many as their limit, and a job below it failed by its attempts; and a holder's
operation changes nothing but under the row's unexpired lease.
-/
theorem leases {start : Nat} (h : Reach step anyEvent (empty start) w) : (∀ entry ∈ w.jobs,
      (∀ grant ∈ entry.grants, grant.unexpired w.now → entry.job.heldBy w.now grant.lease = true ∧
          ∀ other ∈ entry.grants, other.unexpired w.now → other = grant) ∧
      (entry.grants.Pairwise fun earlier later =>
        earlier.lease.leaseGeneration < later.lease.leaseGeneration) ∧
      Counted entry.job entry.failures ∧ entry.job.leaseExpiries = entry.lapses) ∧
    ∀ e w' jobId lease, e.shows = some (jobId, lease) → step w e = some w' → w' ≠ w →
      ∃ entry ∈ w.jobs, entry.job.id = jobId ∧ entry.job.heldBy w.now lease = true := by
  refine ⟨fun entry hentry => ?_, fun e w' jobId lease => heldBy_of_shows⟩
  have hsound := inv_reachable h entry hentry
  refine ⟨fun grant hgrant hunexpired => ⟨?_, fun other hother hother' => ?_⟩, hsound.rising,
    hsound.counted, hsound.lapses⟩
  · have hmatches := hsound.current grant hgrant hunexpired
    exact heldBy_iff.mpr ⟨hmatches.running, hmatches.workerId, hmatches.leaseToken,
      hmatches.leaseGeneration, grant.expires, hmatches.expires, hunexpired.2⟩
  · refine hsound.grant_unique hother hgrant ?_
    rw [← (hsound.current other hother hother').leaseGeneration,
      ← (hsound.current grant hgrant hunexpired).leaseGeneration]

/-! ## A job that never failed -/

def job : NewJob where
  tenantId := "t"
  workflowRunId := "r"
  workflowStepAttemptId := none
  kind := .durableBoundary
  payload := ""
  priority := none
  availableAt := none
  maxAttempts := none
  dedupeKey := none

def completedRun : List Event :=
  [.enqueue "j" job, .claim ["j"] "a" "token" 60, .complete "j" ⟨"a", "token", 1⟩]

theorem leases_completed : ∃ w, exec step (empty 0) completedRun = some w ∧
      ∀ entry ∈ w.jobs, Counted entry.job entry.failures := by
  obtain ⟨w, hw⟩ := isSome_iff_exists.mp
    (show (exec step (empty 0) completedRun).isSome = true by decide +kernel)
  exact ⟨w, hw, fun entry hentry => ((leases (reach_of_exec hw)).1 entry hentry).2.2.1⟩

/-- The code never failed, and the job counts an attempt. -/
theorem attempt_without_failure : ∃ w, Reach step anyEvent (empty 0) w ∧
      ∃ entry ∈ w.jobs, entry.failures = 0 ∧ entry.job.attempt = 1 := by
  have hrun : (exec step (empty 0) completedRun).map
      (fun w => w.jobs.map fun entry => (entry.failures, entry.job.attempt)) = some [(0, 1)] := by
    decide +kernel
  obtain ⟨w, hw, hread⟩ := map_eq_some_iff.mp hrun
  obtain ⟨entry, hentry, hcounts⟩ :=
    mem_map.mp (show ((0, 1) : Nat × Int) ∈ w.jobs.map _ from hread ▸ mem_cons_self)
  simp only [Prod.mk.injEq] at hcounts
  exact ⟨w, reach_of_exec hw, entry, hentry, hcounts⟩

end Catamorphic.Execution.Jobs
