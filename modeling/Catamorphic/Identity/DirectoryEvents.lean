import Catamorphic.Lib.Runs
import Mathlib.Algebra.GroupWithZero.Nat

/-!
# Directory events

An account joins at a sign-in, leaves when it is disabled, and between the two its groups may
change. The transaction that records such a transition, under the account's row lock, queues
its event. Queued events are delivered by any replica: claimed under a row lock that others
skip, appended to their projects and removed in one transaction, or kept for later where that
fails. What the directory answers is any answer.
-/

namespace Catamorphic.Identity.Directory

inductive Kind
  | memberJoined
  | memberLeft
  | groupsChanged
  deriving DecidableEq

structure Member where
  id : String
  email : String
  name : Option String
  deriving DecidableEq

/-- A row of `work_accounts`; its defaults are those of an account not yet recorded. -/
structure Account where
  disabledAt : Option Nat := none
  disabledReason : Option String := none
  directoryCheckedAt : Option Nat := none
  directoryGroups : List String := []
  directoryTrackedGroups : List String := []
  joinedAt : Option Nat := none
  lifecycleRevision : Nat := 0
  deriving DecidableEq

structure Event where
  kind : Kind
  member : Member
  revision : Nat
  occurredAt : Nat
  groups : List String
  added : List String
  removed : List String
  deriving DecidableEq

/-- `<kind>:<user id>:<revision>`; the revision has no colon in it. -/
def Event.externalId (event : Event) : Kind × String × Nat :=
  (event.kind, event.member.id, event.revision)

/-- A row of `work_directory_announcements`, with the delivery that holds its lock. -/
structure Announcement where
  event : Event
  attempts : Nat := 0
  nextAttemptAt : Nat
  lastError : Option String := none
  claimedBy : Option Nat := none
  deriving DecidableEq

structure World where
  now : Nat
  accounts : String → Account
  /-- In the order they were created. -/
  announcements : List Announcement
  /-- Every event a transition recorded, in order. -/
  recorded : List Event
  /-- Every event whose delivery committed, in order. -/
  acknowledged : List Event

def empty (now : Nat) : World := ⟨now, fun _ => {}, [], [], []⟩

structure User where
  email : String
  name : String
  deriving DecidableEq

/-! ## Recording transitions -/

/-- What the directory answered: the groups, and those it was asked about. -/
structure Answer where
  groups : List String
  tracked : List String
  deriving DecidableEq

section

-- `group.trim().toLowerCase()`
variable (normalizeGroup : String → String)

/-- Stored or reported groups as one normalized, sorted list. -/
def groupList (groups : List String) : List String :=
  (groups.map normalizeGroup).eraseDups.mergeSort fun a b => decide (a ≤ b)

/-- An event is queued in the transaction that records its transition. -/
def World.queueAnnouncement (w : World) (user : Option User) (userId : String) (kind : Kind)
    (revision occurredAt : Nat) (groups added removed : List String) : World :=
  match user with
  | none => w
  | some user =>
    let event : Event :=
      { kind
        member := ⟨userId, user.email.toLower, if user.name = "" then none else some user.name⟩
        revision
        occurredAt
        groups := groupList normalizeGroup groups
        added := groupList normalizeGroup added
        removed := groupList normalizeGroup removed }
    if w.announcements.any fun row => row.event.externalId = event.externalId then w
    else
      { w with
        announcements := w.announcements ++ [{ event, nextAttemptAt := w.now }]
        recorded := w.recorded ++ [event] }

/-- The groups that came and went, of those asked about both times. -/
def changedGroups (account : Account) (answer : Option Answer) : List String × List String :=
  let before := groupList normalizeGroup account.directoryGroups
  let groups := answer.elim before fun answer => groupList normalizeGroup answer.groups
  let trackedBefore := groupList normalizeGroup account.directoryTrackedGroups
  let compared := (groupList normalizeGroup (answer.elim [] Answer.tracked)).filter fun group =>
    group ∈ trackedBefore
  (groups.filter fun group => group ∈ compared && group ∉ before,
    before.filter fun group => group ∈ compared && group ∉ groups)

/-- The transition an approving answer, or a sign-in, makes. -/
def transition (account : Account) (signIn : Bool) (answer : Option Answer) : Option Kind :=
  let disabled := !signIn && account.disabledAt.isSome
  let joins := signIn && (account.joinedAt.isNone || account.disabledAt.isSome)
  let changed := changedGroups normalizeGroup account answer
  if joins then some .memberJoined
  else if !disabled && account.joinedAt.isSome && (changed.1 ++ changed.2) ≠ [] then
    some .groupsChanged
  else none

def Account.standing (account : Account) (now : Nat) (signIn : Bool) (answer : Option Answer)
    (kind : Option Kind) : Account where
  disabledAt := if signIn then none else account.disabledAt
  disabledReason := if signIn then none else account.disabledReason
  directoryCheckedAt := if answer.isSome then some now else account.directoryCheckedAt
  directoryGroups :=
    answer.elim account.directoryGroups fun answer => groupList normalizeGroup answer.groups
  directoryTrackedGroups :=
    answer.elim account.directoryTrackedGroups fun answer =>
      groupList normalizeGroup answer.tracked
  joinedAt := if kind = some .memberJoined then some now else account.joinedAt
  lifecycleRevision := account.lifecycleRevision + if kind.isSome then 1 else 0

def World.setAccount (w : World) (userId : String) (account : Account) : World :=
  { w with accounts := Function.update w.accounts userId account }

def World.recordStanding (w : World) (user : Option User) (userId : String) (now : Nat)
    (signIn : Bool) (answer : Option Answer) : World :=
  let account := w.accounts userId
  let kind := transition normalizeGroup account signIn answer
  let account' := account.standing normalizeGroup now signIn answer kind
  let w := w.setAccount userId account'
  let groups := groupList normalizeGroup account'.directoryGroups
  match kind with
  | some .groupsChanged =>
    let changed := changedGroups normalizeGroup account answer
    w.queueAnnouncement normalizeGroup user userId .groupsChanged account'.lifecycleRevision now
      groups changed.1 changed.2
  | some kind =>
    w.queueAnnouncement normalizeGroup user userId kind account'.lifecycleRevision now groups
      [] []
  | none => w

/-- The first transaction of `disable`; a member leaves once. -/
def World.disable (w : World) (user : Option User) (userId : String) (now : Nat)
    (reason : String) : World :=
  let account := w.accounts userId
  let leaves := account.joinedAt.isSome && account.disabledAt.isNone
  let revision := account.lifecycleRevision + if leaves then 1 else 0
  let w := w.setAccount userId
    { account with
      disabledAt := some now
      disabledReason := some reason
      lifecycleRevision := revision }
  if leaves then
    w.queueAnnouncement normalizeGroup user userId .memberLeft revision now
      (groupList normalizeGroup account.directoryGroups) [] []
  else w

end

/-! ## Delivering -/

/-- One account's events go in order. -/
def World.earlierWaits (w : World) (event : Event) : Bool :=
  w.announcements.any fun row =>
    row.event.member.id = event.member.id && decide (row.event.revision < event.revision)

/-- The row a delivery claims: due, not locked, with none before it. -/
def World.due (w : World) (externalId : Option (Kind × String × Nat)) : Option Announcement :=
  w.announcements.find? fun row =>
    decide (row.nextAttemptAt ≤ w.now) && externalId.all (· = row.event.externalId) &&
      !w.earlierWaits row.event && row.claimedBy.isNone

def World.claimedBy (w : World) (delivery : Nat) : Option Announcement :=
  w.announcements.find? fun row => row.claimedBy = some delivery

/-- The rows with an event's id are changed. -/
def World.changeRow (w : World) (externalId : Kind × String × Nat)
    (change : Announcement → Announcement) : List Announcement :=
  w.announcements.map fun row => if row.event.externalId = externalId then change row else row

/-- The seconds until the next attempt. -/
def backoff (attempts : Nat) : Nat := min 300 (2 ^ attempts)

inductive Action
  | tick (now : Nat)
  | recordStanding (user : Option User) (userId : String) (now : Nat) (signIn : Bool)
      (answer : Option Answer)
  | disable (user : Option User) (userId : String) (now : Nat) (reason : String)
  /-- A delivery claims an event, any that is due or the one it is for. -/
  | deliver (delivery : Nat) (externalId : Option (Kind × String × Nat))
  /-- It appended the event to its projects, removed the row, and commits. -/
  | commit (delivery : Nat)
  /-- It failed, or its replica crashed. -/
  | abort (delivery : Nat)
  /-- The failure is recorded, where the row is still there and not locked. -/
  | recordFailure (externalId : Kind × String × Nat) (attempts : Nat) (message : String)

def step (normalizeGroup : String → String) (w : World) : Action → Option World
  | .tick now => if w.now ≤ now then some { w with now } else none
  | .recordStanding user userId now signIn answer =>
    some (w.recordStanding normalizeGroup user userId now signIn answer)
  | .disable user userId now reason => some (w.disable normalizeGroup user userId now reason)
  | .deliver delivery externalId =>
    if (w.claimedBy delivery).isSome then none
    else
      match w.due externalId with
      | none => some w
      | some row =>
        some { w with
          announcements := w.changeRow row.event.externalId fun row =>
            { row with claimedBy := some delivery } }
  | .commit delivery =>
    (w.claimedBy delivery).map fun row =>
      { w with
        announcements := w.announcements.filter fun row => row.claimedBy ≠ some delivery
        acknowledged := w.acknowledged ++ [row.event] }
  | .abort delivery =>
    some { w with
      announcements := w.announcements.map fun row =>
        if row.claimedBy = some delivery then { row with claimedBy := none } else row }
  | .recordFailure externalId attempts message =>
    if w.announcements.any fun row =>
        row.event.externalId = externalId && row.claimedBy.isSome then
      none
    else
      some { w with
        announcements := w.changeRow externalId fun row =>
          { row with
            attempts := attempts + 1
            lastError := some message
            nextAttemptAt := w.now + backoff attempts } }

end Catamorphic.Identity.Directory
