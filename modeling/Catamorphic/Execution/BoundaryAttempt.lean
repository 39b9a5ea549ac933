import Catamorphic.Execution.RunCoordinator

/-!
# A boundary's attempt and its deferrals

A delivery of a boundary's job begins the attempt, again where it was begun before, and
executes the boundary's body in what is left of the five minutes since the first start. A
deferral gives the job back: for rate capacity before the attempt begins, for a provider's
answer or an unavailable connection after the body ran. The attempt stays as it is, and with
it its first start.
-/

namespace Catamorphic.Execution.Coordinator

open Option

/-- What a delivery comes to. -/
inductive Dispatch
  /-- The attempt cannot begin, or the job is another's. -/
  | absent
  /-- Nothing is left of the five minutes. -/
  | timedOut
  /-- The body is executed, with the milliseconds that are left. -/
  | executed (budget : Nat)
  deriving DecidableEq

/-- The attempt begins, and the handler reads its deadline and then its own clock. -/
def World.dispatch (w : World) (runId : RunId) (attemptId : AttemptId) (ownsJob : Bool)
    (checkedAt : Nat) : World × Dispatch :=
  let (w, begun) := w.beginAttempt runId attemptId ownsJob .boundary
  if begun then
    match w.boundaryDeadline attemptId ownsJob with
    | none => (w, .absent)
    | some deadline =>
      ({ w with now := checkedAt },
        if deadline ≤ checkedAt then .timedOut else .executed (deadline - checkedAt))
  else (w, .absent)

/-- `BoundaryAttemptTimeoutError` -/
def attemptTimeout : String := "Boundary attempt exceeded its five-minute deadline"

/-- The delivery up to where the body is executed: an attempt out of time fails instead. -/
def World.deliverBoundary (w : World) (runId : RunId) (attemptId : AttemptId) (ownsJob : Bool)
    (checkedAt : Nat) : Option World :=
  let (w, dispatch) := w.dispatch runId attemptId ownsJob checkedAt
  if dispatch = .timedOut then w.failStep attemptId attemptTimeout true ownsJob else some w

inductive DeferralKind
  /-- The run is paused by its operator. -/
  | pausedRun
  /-- No rate capacity could be reserved. -/
  | rateCapacity
  /-- The body's answer was a provider's limit. -/
  | rateLimited
  /-- The connection a call needs is unavailable. -/
  | connection
  deriving DecidableEq

/-- The attempt begins before the delivery is deferred. -/
def DeferralKind.begins : DeferralKind → Bool
  | .pausedRun | .rateCapacity => false
  | .rateLimited | .connection => true

structure Deferral where
  kind : DeferralKind
  deliveredAt : Nat
  checkedAt : Nat
  answeredAt : Nat

/-- A delivery that is deferred; an answer past the deadline would not be. -/
def World.defer (runId : RunId) (attemptId : AttemptId) (w : World) (deferral : Deferral) :
    Option World :=
  if w.now ≤ deferral.deliveredAt ∧ deferral.deliveredAt ≤ deferral.checkedAt ∧
      deferral.checkedAt ≤ deferral.answeredAt then
    if deferral.kind.begins then
      match World.dispatch { w with now := deferral.deliveredAt } runId attemptId true
          deferral.checkedAt with
      | (w, .executed budget) =>
        if deferral.answeredAt < deferral.checkedAt + budget then
          some { w with now := deferral.answeredAt }
        else none
      | _ => none
    else some { w with now := deferral.answeredAt }
  else none

/-- When the first of the deferrals that begin the attempt began it. -/
def firstStart (deferrals : List Deferral) : Option Nat :=
  (deferrals.find? fun deferral => deferral.kind.begins).map Deferral.deliveredAt

/-- The attempt is active and can begin, with its row but for status and start. -/
structure Deferred (w : World) (runId : RunId) (attemptId : AttemptId) (attempt : Attempt)
    (startedAt : Option Nat) : Prop where
  run : ∃ run, w.runs runId = some run ∧ run.status.isActive = true ∧
    run.activeAttempt = some attemptId
  row : ∃ status, w.attempts attemptId = some { attempt with status, startedAt } ∧
    (status = .pending ∨ status = .running)
  own : attempt.runId = runId

variable {w w' : World} {runId : RunId} {attemptId : AttemptId} {attempt : Attempt}
  {startedAt : Option Nat}

section

variable (h : Deferred w runId attemptId attempt startedAt)
include h

theorem Deferred.later (now : Nat) : Deferred { w with now } runId attemptId attempt startedAt :=
  ⟨h.run, h.row, h.own⟩

/-- The attempt begins, at its first start where it has one. -/
theorem Deferred.begin : ∃ w', w.beginAttempt runId attemptId true .boundary = (w', true) ∧
      w'.nextAttempt = w.nextAttempt ∧
      Deferred w' runId attemptId attempt (some (startedAt.getD w.now)) ∧
      w'.boundaryDeadline attemptId true = some (startedAt.getD w.now + 300000) := by
  obtain ⟨run, hrun, hactive, hattempt⟩ := h.run
  obtain ⟨status, hrow, hstatus⟩ := h.row
  obtain rfl := h.own
  have hbegins : (decide (status = .pending) || decide (status = .running)) = true := by
    rcases hstatus with rfl | rfl <;> rfl
  let begun : Attempt :=
    { attempt with status := .running, startedAt := some (startedAt.getD w.now) }
  let started : Run :=
    { run with
      status := .running
      phase := .boundary
      startedAt := some (run.startedAt.getD w.now) }
  have hw : w.beginAttempt attempt.runId attemptId true .boundary =
      ((w.setAttempt attemptId begun).setRun attempt.runId started, true) := by
    have hruns : (w.setAttempt attemptId begun).runs attempt.runId = some run := hrun
    rw [World.beginAttempt, hrun, hrow]
    simp only [hactive, hbegins]
    rw [updateRun_of hruns hactive]
    rfl
  have hself : ((w.setAttempt attemptId begun).setRun attempt.runId started).attempts attemptId =
      some begun := Function.update_self ..
  have hrunself : ((w.setAttempt attemptId begun).setRun attempt.runId started).runs
      attempt.runId = some started := Function.update_self ..
  refine ⟨_, hw, rfl, ⟨⟨started, hrunself, rfl, hattempt⟩, ⟨.running, hself, .inr rfl⟩, rfl⟩, ?_⟩
  have hlock : World.lockActiveAttempt ((w.setAttempt attemptId begun).setRun attempt.runId
      started) attemptId = some (started, begun) := by
    have hrunof : ((w.setAttempt attemptId begun).setRun attempt.runId started).runs
        begun.runId = some started := hrunself
    rw [World.lockActiveAttempt, hself]
    dsimp only
    rw [hrunof]
    exact if_pos (by simp [started, RunStatus.isActive, hattempt])
  rw [World.boundaryDeadline, hlock]
  rfl

/-- **A delivery executes the body in what is left since the first start.** -/
theorem Deferred.dispatch (checkedAt : Nat) : ∃ w', w.dispatch runId attemptId true checkedAt =
        (w', if startedAt.getD w.now + 300000 ≤ checkedAt then .timedOut
          else .executed (startedAt.getD w.now + 300000 - checkedAt)) ∧
      w'.now = checkedAt ∧ w'.nextAttempt = w.nextAttempt ∧
      Deferred w' runId attemptId attempt (some (startedAt.getD w.now)) := by
  obtain ⟨begun, hbegin, hnext, hdeferred, hdeadline⟩ := h.begin
  refine ⟨{ begun with now := checkedAt }, ?_, rfl, hnext, hdeferred.later checkedAt⟩
  rw [World.dispatch, hbegin]
  dsimp only
  rw [if_pos rfl, hdeadline]

/-- One deferral: the attempt stays, with its first start. -/
theorem Deferred.defer {deferral : Deferral} (hs : w.defer runId attemptId deferral = some w') :
    Deferred w' runId attemptId attempt (startedAt.or (firstStart [deferral])) ∧
      w'.nextAttempt = w.nextAttempt := by
  unfold World.defer at hs
  split at hs
  · split at hs
    · rename_i hbegins
      obtain ⟨w₁, hdispatch, -, hnext, hdeferred⟩ :=
        (h.later deferral.deliveredAt).dispatch deferral.checkedAt
      rw [hdispatch] at hs
      have hfirst : firstStart [deferral] = some deferral.deliveredAt := by
        simp [firstStart, hbegins]
      have hstart : some (startedAt.getD deferral.deliveredAt) =
          startedAt.or (firstStart [deferral]) := by
        rw [hfirst]
        cases startedAt <;> rfl
      split at hs
      · rename_i w₂ budget hpair
        split at hs
        · cases hs
          obtain rfl := congrArg Prod.fst hpair
          exact ⟨hstart ▸ hdeferred.later deferral.answeredAt, hnext⟩
        · cases hs
      · cases hs
    · rename_i hbefore
      cases hs
      have hfirst : firstStart [deferral] = none := by
        simp [firstStart, hbefore]
      rw [hfirst, or_none]
      exact ⟨h.later deferral.answeredAt, rfl⟩
  · cases hs

/-- **Deferrals, however many, keep the attempt and its first start.** -/
theorem Deferred.deferrals {deferrals : List Deferral}
    (hs : deferrals.foldlM (World.defer runId attemptId) w = some w') :
    Deferred w' runId attemptId attempt (startedAt.or (firstStart deferrals)) ∧
      w'.nextAttempt = w.nextAttempt := by
  induction deferrals generalizing w startedAt with
  | nil =>
    cases hs
    rw [firstStart, List.find?_nil, map_none, or_none]
    exact ⟨h, rfl⟩
  | cons deferral deferrals ih =>
    rw [List.foldlM_cons, bind_eq_bind, bind_eq_some_iff] at hs
    obtain ⟨w₁, hone, hrest⟩ := hs
    obtain ⟨h₁, hnext₁⟩ := h.defer hone
    obtain ⟨h₂, hnext₂⟩ := ih h₁ hrest
    have hfirst : firstStart (deferral :: deferrals) =
        (firstStart [deferral]).or (firstStart deferrals) := by
      unfold firstStart
      rw [List.find?_cons, List.find?_cons]
      cases deferral.kind.begins <;> rfl
    rw [hfirst, ← Option.or_assoc]
    exact ⟨h₂, hnext₂.trans hnext₁⟩

end

/--
**A deferral is no failure, and no more time.** After any deferrals of a boundary that can begin
its attempt is the same one, with the start it had or the first that they made. Delivered
again, its body is executed exactly where five minutes from that start are not over, in what is
left of them.
-/
theorem delivered_again {deferrals : List Deferral}
    (h : Deferred w runId attemptId attempt startedAt)
    (hs : deferrals.foldlM (World.defer runId attemptId) w = some w')
    (deliveredAt checkedAt : Nat) : w'.nextAttempt = w.nextAttempt ∧
    (∃ status, w'.attempts attemptId =
      some { attempt with status, startedAt := startedAt.or (firstStart deferrals) }) ∧
    (World.dispatch { w' with now := deliveredAt } runId attemptId true checkedAt).2 =
      if (startedAt.or (firstStart deferrals)).getD deliveredAt + 300000 ≤ checkedAt then .timedOut
      else .executed
        ((startedAt.or (firstStart deferrals)).getD deliveredAt + 300000 - checkedAt) := by
  obtain ⟨hdeferred, hnext⟩ := h.deferrals hs
  obtain ⟨status, hrow, -⟩ := hdeferred.row
  obtain ⟨w₁, hdispatch, -⟩ := (hdeferred.later deliveredAt).dispatch checkedAt
  exact ⟨hnext, ⟨status, hrow⟩, by rw [hdispatch]⟩

/-- A run of one boundary that is tried once. -/
def boundaryRun : Option World := (empty 0).initializeRun [⟨.boundary, none⟩] .null none

theorem delivered_again_boundaryRun : ∃ w w', boundaryRun = some w ∧
      [⟨.rateLimited, 5, 5, 10⟩].foldlM (World.defer 0 0) w = some w' ∧
      (World.dispatch { w' with now := 100000 } 0 0 true 100000).2 = .executed 200005 := by
  obtain ⟨w', hw'⟩ := isSome_iff_exists.mp
    (show (boundaryRun.bind ([⟨.rateLimited, 5, 5, 10⟩].foldlM (World.defer 0 0))).isSome = true by
      decide +kernel)
  obtain ⟨w, hw, hs⟩ := bind_eq_some_iff.mp hw'
  have hdeferred : Deferred w 0 0
      { runId := 0, stepIndex := 0, step := ⟨.boundary, none⟩, attempt := 1, input := .null }
      none := by
    cases hw
    exact ⟨⟨_, rfl, rfl, rfl⟩, ⟨_, rfl, .inl rfl⟩, rfl⟩
  exact ⟨w, w', hw, hs, (delivered_again hdeferred hs 100000 100000).2.2⟩

/-- A provider that asks for more than five minutes: the redelivery fails the run. -/
theorem delivered_again_timedOut :
    ((boundaryRun.bind fun w => [⟨.rateLimited, 0, 0, 10⟩].foldlM (World.defer 0 0) w).map
      fun w => (World.dispatch { w with now := 300001 } 0 0 true 300001).2) = some .timedOut ∧
    ((boundaryRun.bind ([⟨.rateLimited, 0, 0, 10⟩].foldlM (World.defer 0 0))).bind
      fun w => (World.deliverBoundary { w with now := 300001 } 0 0 true 300001).map
        fun w => (w.runs 0).map Run.status) = some (some .failed) := by
  decide +kernel

end Catamorphic.Execution.Coordinator
