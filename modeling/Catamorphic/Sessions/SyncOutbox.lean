import Catamorphic.Lib.Runs
import Catamorphic.Sessions.Protocol
import Mathlib.Logic.Function.Basic

/-!
# The outbox of session mirrors

Which position of a session's log each destination is to reach. An enqueue reads the session and
writes the intent, an acknowledgement reads the intent and writes it: each in two statements,
between which others come. An intent is sent when it is acknowledged at what it wants, and it
never wants less than what was asked for: so long as nobody asks between the two statements.
-/

namespace Catamorphic.Sessions.SyncOutbox

open Protocol Runs Function Option

abbrev OpId := Nat

/-- A position of a session: whose log it is, and how far. -/
structure Watermark where
  authorityRevision : Nat
  sequence : Nat
  deriving DecidableEq

structure Key where
  sessionId : Id
  destinationKey : String
  deriving DecidableEq

inductive State
  | pending
  | leased
  | acknowledged
  | diverged
  deriving DecidableEq

/-- A row of `session_sync_intents`. -/
structure Intent where
  desired : Watermark
  acknowledged : Option Watermark
  status : State
  attemptCount : Nat
  nextAttemptAt : Date
  leaseOwner : Option String
  leaseExpiresAt : Option Date
  lastError : Option String
  deriving DecidableEq

/-! ## One row -/

/-- The insert, or the update of the row that has the key. -/
def enqueued (row : Option Intent) (snapshot : Watermark) (now : Date) : Intent :=
  match row with
  | none =>
    { desired := snapshot
      acknowledged := none
      status := .pending
      attemptCount := 0
      nextAttemptAt := now
      leaseOwner := none
      leaseExpiresAt := none
      lastError := none }
  | some intent =>
    { intent with
      desired := snapshot
      status := .pending
      nextAttemptAt := now
      leaseOwner := none
      leaseExpiresAt := none
      lastError := none }

def Intent.isDue (intent : Intent) (now : Date) : Bool :=
  intent.status = .pending && decide (intent.nextAttemptAt ≤ now) ||
    intent.status = .leased && intent.leaseExpiresAt.any (· ≤ now)

def Intent.claim (intent : Intent) (workerId : String) (now leaseMs : Date) : Intent :=
  { intent with
    status := .leased
    leaseOwner := some workerId
    leaseExpiresAt := some (now + leaseMs)
    attemptCount := intent.attemptCount + 1 }

/-- The condition of every update by the worker that holds the lease. -/
def Intent.leasedBy (intent : Intent) (workerId : String) : Bool :=
  intent.status = .leased && intent.leaseOwner = some workerId

def Intent.acknowledge (intent : Intent) (watermark : Watermark) : Intent :=
  { intent with
    status := .acknowledged
    acknowledged := some watermark
    leaseOwner := none
    leaseExpiresAt := none
    lastError := none }

def Intent.fail (intent : Intent) (error : String) (retryAt : Date) : Intent :=
  { intent with
    status := .pending
    nextAttemptAt := retryAt
    leaseOwner := none
    leaseExpiresAt := none
    lastError := some error }

def Intent.markDiverged (intent : Intent) (error : String) : Intent :=
  { intent with
    status := .diverged
    leaseOwner := none
    leaseExpiresAt := none
    lastError := some error }

inductive Refusal
  /-- `SessionSyncLeaseError` -/
  | lease (key : Key)
  /-- `SessionSyncWatermarkError` -/
  | watermark (key : Key)
  deriving DecidableEq

/-- What an acknowledgement checks on the row that it read. -/
def Intent.refusal (intent : Intent) (key : Key) (workerId : String) (watermark : Watermark) :
    Option Refusal :=
  if !intent.leasedBy workerId then some (.lease key)
  else if intent.desired ≠ watermark then some (.watermark key)
  else none

/-! ## Operations in flight -/

inductive Op
  /-- The session was read. -/
  | enqueue (key : Key) (snapshot : Watermark)
  /-- The intent was read, and nothing was refused. -/
  | acknowledge (key : Key) (workerId : String) (watermark : Watermark)
  | refused (refusal : Refusal)
  deriving DecidableEq

structure World where
  sessions : Id → Option Watermark
  intents : Key → Option Intent
  ops : OpId → Option Op
  /-- How far an intent was asked to go, by the enqueues that are through. -/
  asked : Key → Nat

def start : World where
  sessions := fun _ => none
  intents := fun _ => none
  ops := fun _ => none
  asked := fun _ => 0

def World.setOp (w : World) (id : OpId) (op : Op) : World :=
  { w with ops := update w.ops id (some op) }

def World.setIntent (w : World) (key : Key) (intent : Intent) : World :=
  { w with intents := update w.intents key (some intent) }

/-- An update on condition that the worker holds the lease. -/
def World.updateLeased (w : World) (key : Key) (workerId : String) (change : Intent → Intent) :
    Option World :=
  (w.intents key).bind fun intent =>
    if intent.leasedBy workerId then some (w.setIntent key (change intent)) else none

inductive Event
  | create (sessionId : Id) (watermark : Watermark)
  | append (sessionId : Id) (events : Nat)
  | setAuthority (sessionId : Id) (authorityRevision : Nat)
  /-- An enqueue reads the session. -/
  | enqueue (op : OpId) (key : Key)
  /-- It writes the intent. -/
  | upsert (op : OpId) (now : Date)
  /-- The rows that one claim locked. -/
  | claimDue (workerId : String) (keys : List Key) (now leaseMs : Date)
  /-- An acknowledgement reads the intent. -/
  | acknowledge (op : OpId) (key : Key) (workerId : String) (watermark : Watermark)
  /-- It writes the intent. -/
  | settle (op : OpId)
  | fail (key : Key) (workerId error : String) (retryAt : Date)
  | markDiverged (key : Key) (workerId error : String)

def World.claimDue (w : World) (workerId : String) (now leaseMs : Date) (keys : List Key) : World :=
  { w with
    intents := fun key =>
      (w.intents key).map fun intent =>
        if key ∈ keys && intent.isDue now then intent.claim workerId now leaseMs else intent }

def step (w : World) : Event → Option World
  | .create sessionId watermark =>
    if (w.sessions sessionId).isNone then
      some { w with sessions := update w.sessions sessionId (some watermark) }
    else none
  | .append sessionId events =>
    (w.sessions sessionId).map fun session =>
      { w with
        sessions := update w.sessions sessionId
          (some { session with sequence := session.sequence + events }) }
  | .setAuthority sessionId authorityRevision =>
    (w.sessions sessionId).map fun session =>
      { w with
        sessions := update w.sessions sessionId
          (some { session with authorityRevision }) }
  | .enqueue op key =>
    (w.sessions key.sessionId).bind fun snapshot =>
      if (w.ops op).isNone then some (w.setOp op (.enqueue key snapshot)) else none
  | .upsert op now =>
    match w.ops op with
    | some (.enqueue key snapshot) =>
      some { w.setIntent key (enqueued (w.intents key) snapshot now) with
        ops := update w.ops op none
        asked := update w.asked key (max (w.asked key) snapshot.sequence) }
    | _ => none
  | .claimDue workerId keys now leaseMs => some (w.claimDue workerId now leaseMs keys)
  | .acknowledge op key workerId watermark =>
    (w.intents key).bind fun intent =>
      if (w.ops op).isNone then
        some (w.setOp op (match intent.refusal key workerId watermark with
          | some refusal => .refused refusal
          | none => .acknowledge key workerId watermark))
      else none
  | .settle op =>
    match w.ops op with
    | some (.acknowledge key workerId watermark) =>
      match w.updateLeased key workerId fun intent => intent.acknowledge watermark with
      | some w' => some { w' with ops := update w.ops op none }
      | none => some (w.setOp op (.refused (.lease key)))
    | _ => none
  | .fail key workerId error retryAt =>
    w.updateLeased key workerId fun intent => intent.fail error retryAt
  | .markDiverged key workerId error =>
    w.updateLeased key workerId fun intent => intent.markDiverged error

/-! ## Nothing is left unsent -/

/-- An intent that is acknowledged is so at what it wants, and none wants less than was asked. -/
def Sent (w : World) : Prop :=
  ∀ key intent, w.intents key = some intent →
    (intent.status = .acknowledged →
      intent.acknowledged.map Watermark.sequence = some intent.desired.sequence) ∧
    w.asked key ≤ intent.desired.sequence

/-- Nobody asked for more since the operation read what it writes by now. -/
def unmoved (w : World) : Event → Bool
  | .upsert op _ =>
    match w.ops op with
    | some (.enqueue key snapshot) =>
      (w.intents key).all fun intent => intent.desired.sequence ≤ snapshot.sequence
    | _ => true
  | .settle op =>
    match w.ops op with
    | some (.acknowledge key workerId watermark) =>
      (w.intents key).all fun intent =>
        !intent.leasedBy workerId || intent.desired.sequence = watermark.sequence
    | _ => true
  | _ => true

abbrev Unmoved (w : World) (e : Event) : Prop := unmoved w e = true

variable {w w' : World} {e : Event} {key : Key} {intent : Intent} {workerId : String}
  {change : Intent → Intent} {op : OpId}

theorem unmoved_upsert {now : Date} {snapshot : Watermark}
    (h : Unmoved w (.upsert op now)) (hop : w.ops op = some (.enqueue key snapshot))
    (hintent : w.intents key = some intent) : intent.desired.sequence ≤ snapshot.sequence := by
  rw [Unmoved, unmoved, hop] at h
  simp only [hintent] at h
  exact of_decide_eq_true h

theorem unmoved_settle {watermark : Watermark}
    (h : Unmoved w (.settle op)) (hop : w.ops op = some (.acknowledge key workerId watermark))
    (hintent : w.intents key = some intent) (hleased : intent.leasedBy workerId = true) :
    intent.desired.sequence = watermark.sequence := by
  rw [Unmoved, unmoved, hop] at h
  simp only [hintent, all_some, hleased] at h
  exact of_decide_eq_true h

/-- Nothing was asked for where there is no intent. -/
def Asked (w : World) : Prop := ∀ key, w.intents key = none → w.asked key = 0

theorem updateLeased_some (h : w.updateLeased key workerId change = some w') :
    ∃ intent, w.intents key = some intent ∧ intent.leasedBy workerId = true ∧
      w' = w.setIntent key (change intent) := by
  obtain ⟨intent, hintent, h⟩ := bind_eq_some_iff.mp h
  by_cases hleased : intent.leasedBy workerId = true
  · rw [if_pos hleased] at h
    exact ⟨intent, hintent, hleased, (some.inj h).symm⟩
  · rw [if_neg hleased] at h
    cases h

/-- One row is written, and asked for at most what it then wants. -/
theorem Sent.setIntent (h : Sent w) (hw : w'.intents = update w.intents key (some intent))
    (hasked : ∀ key', key' ≠ key → w'.asked key' = w.asked key')
    (hack : intent.status = .acknowledged →
      intent.acknowledged.map Watermark.sequence = some intent.desired.sequence)
    (hown : w'.asked key ≤ intent.desired.sequence) : Sent w' := by
  intro key' intent' hintent'
  rw [hw] at hintent'
  by_cases heq : key' = key
  · subst heq
    rw [update_self] at hintent'
    cases hintent'
    exact ⟨hack, hown⟩
  · rw [update_of_ne heq] at hintent'
    rw [hasked key' heq]
    exact h key' intent' hintent'

theorem Asked.setIntent (h : Asked w) (hw : w'.intents = update w.intents key (some intent))
    (hasked : ∀ key', key' ≠ key → w'.asked key' = w.asked key') : Asked w' := by
  intro key' hnone
  rw [hw] at hnone
  by_cases heq : key' = key
  · rw [heq, update_self] at hnone
    cases hnone
  · rw [update_of_ne heq] at hnone
    rw [hasked key' heq]
    exact h key' hnone

/-- An update by the lease's holder after which the row is not acknowledged, or rightly so. -/
theorem sent_updateLeased (h : Sent w) (hw : w.updateLeased key workerId change = some w')
    (hdesired : ∀ intent, (change intent).desired = intent.desired)
    (hack : ∀ intent, w.intents key = some intent → intent.leasedBy workerId = true →
      (change intent).status = .acknowledged →
        (change intent).acknowledged.map Watermark.sequence = some intent.desired.sequence) :
    Sent w' := by
  obtain ⟨intent, hintent, hleased, rfl⟩ := updateLeased_some hw
  refine h.setIntent rfl (fun _ _ => rfl) ?_ ?_
  · rw [hdesired]
    exact hack intent hintent hleased
  · rw [hdesired]
    exact (h key intent hintent).2

theorem sent_claimDue {now leaseMs : Date} {keys : List Key} (h : Sent w) :
    Sent (w.claimDue workerId now leaseMs keys) := by
  intro key intent hintent
  obtain ⟨before, hbefore, rfl⟩ := map_eq_some_iff.mp hintent
  obtain ⟨hack, hasked⟩ := h key before hbefore
  split
  · exact ⟨fun hstatus => (nomatch hstatus), hasked⟩
  · exact ⟨hack, hasked⟩

theorem asked_step (h : Asked w) (hs : step w e = some w') : Asked w' := by
  cases e with
  | create sessionId watermark =>
    rw [step] at hs
    split at hs
    · cases hs
      exact h
    · cases hs
  | append sessionId events | setAuthority sessionId authorityRevision =>
    obtain ⟨session, -, rfl⟩ := map_eq_some_iff.mp hs
    exact h
  | enqueue op key =>
    obtain ⟨snapshot, -, hs⟩ := bind_eq_some_iff.mp hs
    split at hs
    · cases hs
      exact h
    · cases hs
  | upsert op now =>
    rw [step] at hs
    split at hs
    · cases hs
      exact h.setIntent rfl fun key' hne => update_of_ne hne ..
    · cases hs
  | claimDue workerId keys now leaseMs =>
    cases hs
    intro key hnone
    exact h key (map_eq_none_iff.mp hnone)
  | acknowledge op key workerId watermark =>
    obtain ⟨intent, -, hs⟩ := bind_eq_some_iff.mp hs
    split at hs
    · cases hs
      exact h
    · cases hs
  | settle op =>
    rw [step] at hs
    split at hs
    · split at hs
      · rename_i hupdate
        cases hs
        obtain ⟨intent, -, -, rfl⟩ := updateLeased_some hupdate
        exact h.setIntent rfl fun _ _ => rfl
      · cases hs
        exact h
    · cases hs
  | fail key workerId error retryAt | markDiverged key workerId error =>
    obtain ⟨intent, -, -, rfl⟩ := updateLeased_some hs
    exact h.setIntent rfl fun _ _ => rfl

theorem enqueued_status (row : Option Intent) (snapshot : Watermark) (now : Date) :
    (enqueued row snapshot now).status = .pending ∧
      (enqueued row snapshot now).desired = snapshot := by
  cases row <;> exact ⟨rfl, rfl⟩

theorem sent_step (h : Sent w) (hasked : Asked w) (hunmoved : Unmoved w e)
    (hs : step w e = some w') : Sent w' := by
  cases e with
  | create sessionId watermark =>
    rw [step] at hs
    split at hs
    · cases hs
      exact h
    · cases hs
  | append sessionId events | setAuthority sessionId authorityRevision =>
    obtain ⟨session, -, rfl⟩ := map_eq_some_iff.mp hs
    exact h
  | enqueue op key =>
    obtain ⟨snapshot, -, hs⟩ := bind_eq_some_iff.mp hs
    split at hs
    · cases hs
      exact h
    · cases hs
  | upsert op now =>
    rw [step] at hs
    split at hs
    · rename_i key snapshot hop
      cases hs
      obtain ⟨hpending, hdesired⟩ := enqueued_status (w.intents key) snapshot now
      refine h.setIntent rfl (fun key' hne => update_of_ne hne ..)
        (fun hstatus => ?_) ?_
      · rw [hpending] at hstatus
        cases hstatus
      · show update w.asked key _ key ≤ _
        rw [update_self, hdesired]
        -- What was asked for before is at most what the row wanted.
        refine Nat.max_le.mpr ⟨?_, Nat.le_refl _⟩
        cases hintent : w.intents key with
        | none =>
          rw [hasked key hintent]
          exact Nat.zero_le _
        | some intent =>
          exact Nat.le_trans (h key intent hintent).2
            (unmoved_upsert hunmoved hop hintent)
    · cases hs
  | claimDue workerId keys now leaseMs =>
    cases hs
    exact sent_claimDue h
  | acknowledge op key workerId watermark =>
    obtain ⟨intent, -, hs⟩ := bind_eq_some_iff.mp hs
    split at hs
    · cases hs
      exact h
    · cases hs
  | settle op =>
    rw [step] at hs
    split at hs
    · rename_i key workerId watermark hop
      split at hs
      · rename_i w₁ hupdate
        cases hs
        have hsent : Sent w₁ := sent_updateLeased h hupdate (fun _ => rfl)
          fun intent hintent hleased _ => by
            rw [unmoved_settle hunmoved hop hintent hleased]
            rfl
        exact hsent
      · cases hs
        exact h
    · cases hs
  | fail key workerId error retryAt | markDiverged key workerId error =>
    exact sent_updateLeased h hs (fun _ => rfl) fun _ _ _ hstatus => (nomatch hstatus)

/-- **Nothing is left unsent** in a run where no operation writes over what was asked for since
it read. -/
theorem sent_of_unmoved (h : Reach step Unmoved start w) : Sent w := by
  have hboth : Sent w ∧ Asked w := h.invariant (I := fun w => Sent w ∧ Asked w)
    ⟨fun _ _ hintent => (nomatch hintent), fun _ _ => rfl⟩
    fun _ _ _ ⟨hsent, hasked⟩ hunmoved hs =>
      ⟨sent_step hsent hasked hunmoved hs, asked_step hasked hs⟩
  exact hboth.1

def mirrorKey : Key := ⟨1, "server"⟩

/-- What an intent shows of the rows above. -/
def World.shows (w : World) : Option (State × Option Nat × Nat) × Nat :=
  ((w.intents mirrorKey).map fun intent =>
    (intent.status, intent.acknowledged.map Watermark.sequence, intent.desired.sequence),
    w.asked mirrorKey)

/-- A session is asked for and sent, twice. -/
def sentTwice : List Event :=
  [.create 1 ⟨0, 5⟩, .enqueue 1 mirrorKey, .upsert 1 0, .claimDue "worker" [mirrorKey] 0 1000,
    .acknowledge 2 mirrorKey "worker" ⟨0, 5⟩, .settle 2, .append 1 2, .enqueue 3 mirrorKey,
    .upsert 3 0, .claimDue "worker" [mirrorKey] 0 1000, .acknowledge 4 mirrorKey "worker" ⟨0, 7⟩,
    .settle 4]

theorem sent_of_unmoved_twice : ∃ w, execOk step Unmoved start sentTwice = some w ∧
    w.shows = (some (.acknowledged, some 7, 7), 7) ∧ Sent w := by
  have hrun : (execOk step Unmoved start sentTwice).map World.shows =
      some (some (.acknowledged, some 7, 7), 7) := by decide +kernel
  obtain ⟨w, hw, hshows⟩ := map_eq_some_iff.mp hrun
  exact ⟨w, hw, hshows, sent_of_unmoved (reach_of_execOk hw)⟩

/-! ## Where it is left -/

/-- An enqueue that read first writes last. -/
def overtaken : List Event :=
  [.create 1 ⟨0, 5⟩, .enqueue 1 mirrorKey, .append 1 2, .enqueue 2 mirrorKey, .upsert 2 0,
    .upsert 1 0]

example : (exec step start overtaken).map World.shows = some (some (.pending, none, 5), 7) := by
  decide +kernel

/-- A worker's acknowledgement is written under the lease that it took after an enqueue. -/
def acknowledgedLate : List Event :=
  [.create 1 ⟨0, 5⟩, .enqueue 1 mirrorKey, .upsert 1 0, .claimDue "worker" [mirrorKey] 0 1000,
    .acknowledge 2 mirrorKey "worker" ⟨0, 5⟩, .append 1 2, .enqueue 3 mirrorKey, .upsert 3 0,
    .claimDue "worker" [mirrorKey] 0 1000, .settle 2]

/-- **An update is left unsent**: the intent is acknowledged short of what it wants. -/
theorem unsent : ¬∀ w, Reach step anyEvent start w → Sent w := by
  intro hclaim
  have hrun : (exec step start acknowledgedLate).map World.shows =
      some (some (.acknowledged, some 5, 7), 7) := by decide +kernel
  obtain ⟨w, hw, hshows⟩ := map_eq_some_iff.mp hrun
  obtain ⟨hintent, -⟩ := Prod.mk.inj hshows
  obtain ⟨intent, hintent, hshown⟩ := map_eq_some_iff.mp hintent
  obtain ⟨hstatus, hrest⟩ := Prod.mk.inj hshown
  obtain ⟨hack, hdesired⟩ := Prod.mk.inj hrest
  have hsent := (hclaim w (reach_of_exec hw) mirrorKey intent hintent).1 hstatus
  rw [hack, hdesired] at hsent
  cases hsent

end Catamorphic.Sessions.SyncOutbox
