import Catamorphic.Identity.DirectoryEvents
import Mathlib.Data.List.Range

/-!
# Directory events are in order

A transition under the account's row lock advances the account's revision and queues one event
with it, so an account's events are numbered from one and tell where the account stands. The
rows that wait are the rest of these events, after those that were delivered: a delivery takes
the first, and no other has its lock.
-/

namespace Catamorphic.Identity.Directory

open Runs List Option

/-- An account that joined and was not disabled since. -/
def Account.isMember (account : Account) : Bool :=
  account.joinedAt.isSome && account.disabledAt.isNone

/-- Whether the account is a member after the event; `none` where it cannot happen. -/
def Kind.after (isMember : Bool) : Kind → Option Bool
  | .memberJoined => if isMember then none else some true
  | .memberLeft => if isMember then some false else none
  | .groupsChanged => if isMember then some true else none

/-- Where a list of events takes the account. -/
def standingAfter : Bool → List Kind → Option Bool
  | isMember, [] => some isMember
  | isMember, kind :: kinds => (kind.after isMember).bind fun after => standingAfter after kinds

theorem standingAfter_append {start mid : Bool} {kinds : List Kind} (kind : Kind)
    (h : standingAfter start kinds = some mid) :
    standingAfter start (kinds ++ [kind]) = kind.after mid := by
  induction kinds generalizing start with
  | nil =>
    rw [standingAfter, some.injEq] at h
    subst h
    rw [nil_append, standingAfter]
    cases kind.after start <;> rfl
  | cons first kinds ih =>
    rw [standingAfter, bind_eq_some_iff] at h
    obtain ⟨after, hafter, hrest⟩ := h
    rw [cons_append, standingAfter, hafter, bind_some]
    exact ih hrest

def World.eventsOf (w : World) (userId : String) : List Event :=
  w.recorded.filter fun event => event.member.id = userId

def World.acknowledgedOf (w : World) (userId : String) : List Event :=
  w.acknowledged.filter fun event => event.member.id = userId

/-- The account's rows, in the order they were created. -/
def World.rowsOf (w : World) (userId : String) : List Announcement :=
  w.announcements.filter fun row => row.event.member.id = userId

/-- A database whose accounts have no transition yet. -/
def start (now : Nat) (accounts : String → Account) : World := ⟨now, accounts, [], [], []⟩

/-- The member's user record exists. -/
def Action.namesUser : Action → Prop
  | .recordStanding user _ _ _ _ => user.isSome
  | .disable user _ _ _ => user.isSome
  | _ => True

instance (action : Action) : Decidable action.namesUser := by
  cases action <;> unfold Action.namesUser <;> infer_instance

/-- What holds of one account and its events; `first` is whether it was a member at the start. -/
structure Ordered (first : Bool) (w : World) (userId : String) : Prop where
  revisions : (w.eventsOf userId).map Event.revision =
    List.range' 1 (w.accounts userId).lifecycleRevision
  standing : standingAfter first ((w.eventsOf userId).map Event.kind) =
    some (w.accounts userId).isMember
  /-- What was acknowledged, then what waits: each event once, in order. -/
  once : w.acknowledgedOf userId ++ (w.rowsOf userId).map Announcement.event = w.eventsOf userId

/-- What holds of the locks that deliveries have. -/
structure Locked (w : World) : Prop where
  /-- A locked row has none of its account before it. -/
  first : ∀ row ∈ w.announcements, row.claimedBy.isSome → w.earlierWaits row.event = false
  /-- A delivery locks one event. -/
  one : ∀ row ∈ w.announcements, ∀ other ∈ w.announcements, ∀ delivery,
    row.claimedBy = some delivery → other.claimedBy = some delivery →
    row.event.externalId = other.event.externalId

/-! ## A transition -/

/-- A queued event, where none with its id waits. -/
def World.queued (w : World) (event : Event) : World :=
  { w with
    announcements := w.announcements ++ [{ event, nextAttemptAt := w.now }]
    recorded := w.recorded ++ [event] }

/-- What a transaction under an account's row lock does. -/
inductive Moves (w : World) (userId : String) : World → Prop
  | stays (account : Account)
      (hrevision : account.lifecycleRevision = (w.accounts userId).lifecycleRevision)
      (hmember : account.isMember = (w.accounts userId).isMember) :
      Moves w userId (w.setAccount userId account)
  | moves (account : Account) (event : Event)
      (hmember : event.member.id = userId)
      (hrevision : event.revision = (w.accounts userId).lifecycleRevision + 1)
      (haccount : account.lifecycleRevision = event.revision)
      (hkind : event.kind.after (w.accounts userId).isMember = some account.isMember) :
      Moves w userId
        (if w.announcements.any fun row => row.event.externalId = event.externalId then
          w.setAccount userId account
        else (w.setAccount userId account).queued event)

variable {account : Account}

section

variable (normalizeGroup : String → String) {answer : Option Answer} {signIn : Bool} {kind : Kind}

/-- With a user record a transition's event is queued. -/
theorem Moves.queueAnnouncement {w : World} {userId : String} (user : User)
    (now : Nat) (groups added removed : List String)
    (haccount : account.lifecycleRevision = (w.accounts userId).lifecycleRevision + 1)
    (hkind : kind.after (w.accounts userId).isMember = some account.isMember) :
    Moves w userId ((w.setAccount userId account).queueAnnouncement normalizeGroup (some user)
      userId kind account.lifecycleRevision now groups added removed) :=
  .moves account
    { kind
      member := ⟨userId, user.email.toLower, if user.name = "" then none else some user.name⟩
      revision := account.lifecycleRevision
      occurredAt := now
      groups := groupList normalizeGroup groups
      added := groupList normalizeGroup added
      removed := groupList normalizeGroup removed }
    rfl haccount rfl hkind

/-- The transition made is one the account's standing allows, and ends where its row says. -/
theorem transition_after (now : Nat)
    (h : transition normalizeGroup account signIn answer = some kind) :
    kind.after account.isMember =
      some (account.standing normalizeGroup now signIn answer (some kind)).isMember := by
  unfold transition at h
  dsimp only at h
  split at h
  · rename_i hjoins
    cases h
    rw [Bool.and_eq_true, Bool.or_eq_true] at hjoins
    obtain ⟨rfl, hout⟩ := hjoins
    have hnot : account.isMember = false := by
      unfold Account.isMember
      rcases hout with hout | hout
      · rw [isNone_iff_eq_none.mp hout]
        rfl
      · obtain ⟨at', hat⟩ := isSome_iff_exists.mp hout
        rw [hat]
        exact Bool.and_false _
    rw [hnot]
    rfl
  · split at h
    · rename_i hjoins hchanged
      cases h
      simp only [Bool.and_eq_true] at hchanged
      obtain ⟨⟨hdisabled, hjoined⟩, -⟩ := hchanged
      -- A sign-in that does not join finds a member; a check that may change groups does too.
      have hnone : account.disabledAt = none := by
        cases signIn with
        | false => simpa using hdisabled
        | true =>
          simp only [Bool.true_and, Bool.or_eq_true, not_or] at hjoins
          exact not_isSome_iff_eq_none.mp hjoins.2
      have hin : account.isMember = true := by
        simp [Account.isMember, hjoined, hnone]
      have hin' : (account.standing normalizeGroup now signIn answer
          (some .groupsChanged)).isMember = true := by
        simp [Account.isMember, Account.standing, hjoined, hnone]
      rw [hin, hin']
      rfl
    · cases h

/-- Without a transition an account stays where it stood. -/
theorem transition_none (now : Nat) (h : transition normalizeGroup account signIn answer = none) :
    (account.standing normalizeGroup now signIn answer none).isMember = account.isMember := by
  cases signIn with
  | false => rfl
  | true =>
    unfold transition at h
    dsimp only at h
    split at h
    · cases h
    · rename_i hjoins
      simp only [Bool.true_and, Bool.or_eq_true, not_or] at hjoins
      simp [Account.isMember, Account.standing, not_isSome_iff_eq_none.mp hjoins.2]

theorem moves_recordStanding (w : World) (user : User) (userId : String) (now : Nat)
    (signIn : Bool) (answer : Option Answer) :
    Moves w userId (w.recordStanding normalizeGroup (some user) userId now signIn answer) := by
  unfold World.recordStanding
  dsimp only
  cases htransition : transition normalizeGroup (w.accounts userId) signIn answer with
  | none => exact .stays _ rfl (transition_none normalizeGroup now htransition)
  | some kind =>
    have hafter := transition_after normalizeGroup now htransition
    cases kind with
    | memberJoined | memberLeft | groupsChanged =>
      exact .queueAnnouncement normalizeGroup user now _ _ _ rfl hafter

theorem moves_disable (w : World) (user : User) (userId : String) (now : Nat) (reason : String) :
    Moves w userId (w.disable normalizeGroup (some user) userId now reason) := by
  unfold World.disable
  dsimp only
  split
  · rename_i hleaves
    refine .queueAnnouncement normalizeGroup user now _ _ _ rfl ?_
    have hmember : (w.accounts userId).isMember = true := hleaves
    rw [hmember]
    exact congrArg some (Bool.and_false _).symm
  · rename_i hleaves
    refine .stays _ rfl ?_
    have hmember : (w.accounts userId).isMember = false := Bool.not_eq_true _ ▸ hleaves
    rw [hmember]
    exact Bool.and_false _

end

/-! ## One step -/

variable {first : Bool} {w w' : World} {userId : String} {event : Event}

/-- No event of the account has the revision its next transition takes. -/
theorem Ordered.revision_le (h : Ordered first w userId) (hevent : event ∈ w.eventsOf userId) :
    event.revision ≤ (w.accounts userId).lifecycleRevision := by
  have hmem : event.revision ∈ (w.eventsOf userId).map Event.revision :=
    mem_map_of_mem hevent
  rw [h.revisions, mem_range'_1] at hmem
  omega

variable {row : Announcement}

section

variable (h : Ordered first w userId)
include h

/-- What waits is recorded. -/
theorem Ordered.recorded (hrow : row ∈ w.rowsOf userId) : row.event ∈ w.eventsOf userId := by
  rw [← h.once]
  exact mem_append_right _ (mem_map_of_mem hrow)

/-- The rows of an account wait in the order of their revisions. -/
theorem Ordered.rows_rising :
    (w.rowsOf userId).Pairwise fun row later => row.event.revision < later.event.revision := by
  have hrange : ((w.eventsOf userId).map Event.revision).Pairwise (· < ·) := by
    rw [h.revisions]
    exact pairwise_lt_range'
  rw [← h.once, map_append, pairwise_append, List.map_map] at hrange
  exact pairwise_map.mp hrange.2.1

omit h in
theorem mem_rowsOf :
    row ∈ w.rowsOf userId ↔ row ∈ w.announcements ∧ row.event.member.id = userId := by
  simp [World.rowsOf]

/-- The id of a next event is new. -/
theorem Ordered.fresh (hmember : event.member.id = userId)
    (hrevision : event.revision = (w.accounts userId).lifecycleRevision + 1) :
    (w.announcements.any fun row => row.event.externalId = event.externalId) = false := by
  rw [List.any_eq_false]
  intro row hrow hsame
  rw [decide_eq_true_eq, Event.externalId, Event.externalId, Prod.mk.injEq, Prod.mk.injEq] at hsame
  obtain ⟨-, hid, hrev⟩ := hsame
  have hle := h.revision_le (h.recorded (mem_rowsOf.mpr ⟨hrow, hid.trans hmember⟩))
  omega

/-- What a transition of the account keeps of another. -/
theorem Ordered.of_eq (hrecorded : w'.eventsOf userId = w.eventsOf userId)
    (hrevision : (w'.accounts userId).lifecycleRevision = (w.accounts userId).lifecycleRevision)
    (hmember : (w'.accounts userId).isMember = (w.accounts userId).isMember)
    (honce : w'.acknowledgedOf userId ++ (w'.rowsOf userId).map Announcement.event =
      w.acknowledgedOf userId ++ (w.rowsOf userId).map Announcement.event) :
    Ordered first w' userId where
  revisions := by rw [hrecorded, hrevision, h.revisions]
  standing := by rw [hrecorded, hmember, h.standing]
  once := by rw [honce, hrecorded, h.once]

end

theorem setAccount_accounts_self (account : Account) :
    (w.setAccount userId account).accounts userId = account :=
  Function.update_self ..

theorem setAccount_accounts_of_ne (account : Account) {other : String} (hne : other ≠ userId) :
    (w.setAccount userId account).accounts other = w.accounts other :=
  Function.update_of_ne hne ..

variable {mover : String}

/-- **A transition keeps the order of its account's events, and of every other's.** -/
theorem Ordered.moves (h : Ordered first w userId) (hmover : ∃ first', Ordered first' w mover)
    (hw : Moves w mover w') : Ordered first w' userId := by
  cases hw with
  | stays account hrevision hmember =>
    by_cases hsame : userId = mover
    · subst hsame
      refine h.of_eq rfl ?_ ?_ rfl
      · rw [setAccount_accounts_self, hrevision]
      · rw [setAccount_accounts_self, hmember]
    · refine h.of_eq rfl ?_ ?_ rfl
      · rw [setAccount_accounts_of_ne account hsame]
      · rw [setAccount_accounts_of_ne account hsame]
  | moves account event hid hrevision haccount hkind =>
    obtain ⟨first', hm⟩ := hmover
    rw [hm.fresh hid hrevision, if_neg Bool.false_ne_true]
    by_cases hsame : userId = mover
    · subst hsame
      have hrecorded : ((w.setAccount userId account).queued event).eventsOf userId =
          w.eventsOf userId ++ [event] := by
        simp [World.eventsOf, World.queued, World.setAccount, hid]
      have haccounts : ((w.setAccount userId account).queued event).accounts userId = account :=
        setAccount_accounts_self account
      refine ⟨?_, ?_, ?_⟩
      · rw [hrecorded, haccounts, map_append, h.revisions, haccount, hrevision,
          range'_concat, map_singleton, hrevision, Nat.one_mul, Nat.add_comm 1]
      · rw [hrecorded, haccounts, map_append, map_singleton,
          standingAfter_append event.kind h.standing, hkind]
      · rw [hrecorded, ← h.once, append_assoc]
        simp [World.acknowledgedOf, World.rowsOf, World.queued, World.setAccount, hid]
    · have hother : ¬event.member.id = userId := fun heq => hsame (heq.symm.trans hid)
      refine h.of_eq ?_ ?_ ?_ ?_
      · simp [World.eventsOf, World.queued, World.setAccount, hother]
      · exact congrArg _ (setAccount_accounts_of_ne account hsame)
      · exact congrArg _ (setAccount_accounts_of_ne account hsame)
      · simp [World.acknowledgedOf, World.rowsOf, World.queued, World.setAccount, hother]

/-- A new row is not locked, and comes after its account's. -/
theorem Locked.moves (h : Locked w) (hmover : Ordered first w mover) (hw : Moves w mover w') :
    Locked w' := by
  cases hw with
  | stays account hrevision hmember => exact ⟨h.first, h.one⟩
  | moves account event hid hrevision haccount hkind =>
    rw [hmover.fresh hid hrevision, if_neg Bool.false_ne_true]
    have hold : ∀ row ∈ ((w.setAccount mover account).queued event).announcements,
        row.claimedBy.isSome → row ∈ w.announcements := by
      intro row hrow hclaimed
      rcases mem_append.mp hrow with hrow | hrow
      · exact hrow
      · rw [mem_singleton.mp hrow] at hclaimed
        cases hclaimed
    refine ⟨fun row hrow hclaimed => ?_, fun row hrow other hother delivery hr ho => ?_⟩
    · have hrow' := hold row hrow hclaimed
      have hnew : (row.event.member.id = mover) → ¬event.revision < row.event.revision := by
        intro hsame hlt
        have hle := hmover.revision_le (hmover.recorded (mem_rowsOf.mpr ⟨hrow', hsame⟩))
        omega
      have hfirst := h.first row hrow' hclaimed
      unfold World.earlierWaits at hfirst ⊢
      rw [World.queued, any_append, Bool.or_eq_false_iff]
      refine ⟨hfirst, ?_⟩
      simp only [any_cons, any_nil, Bool.or_false, Bool.and_eq_false_iff, decide_eq_false_iff_not]
      by_cases hsame : row.event.member.id = mover
      · exact .inr (hnew hsame)
      · exact .inl fun heq => hsame (heq.symm.trans hid)
    · exact h.one row (hold row hrow (isSome_of_eq_some hr)) other
        (hold other hother (isSome_of_eq_some ho)) delivery hr ho

section

variable {f : Announcement → Announcement} (hevent : ∀ row, (f row).event = row.event)
include hevent

/-- A row that changes keeps its event. -/
theorem Ordered.map_rows (h : Ordered first w userId) :
    Ordered first { w with announcements := w.announcements.map f } userId := by
  refine h.of_eq rfl rfl rfl ?_
  simp [World.rowsOf, World.acknowledgedOf, List.filter_map, Function.comp_def, hevent]

theorem earlierWaits_map_rows (event : Event) :
    World.earlierWaits { w with announcements := w.announcements.map f } event =
      w.earlierWaits event := by
  simp [World.earlierWaits, Function.comp_def, hevent]

/-- Rows may change so long as no lock is taken. -/
theorem Locked.map_rows (h : Locked w)
    (hlock : ∀ row delivery, (f row).claimedBy = some delivery → row.claimedBy = some delivery) :
    Locked { w with announcements := w.announcements.map f } := by
  refine ⟨fun row hrow hclaimed => ?_, fun row hrow other hother delivery hr ho => ?_⟩
  · obtain ⟨old, hold, rfl⟩ := mem_map.mp hrow
    obtain ⟨delivery, hdelivery⟩ := isSome_iff_exists.mp hclaimed
    rw [earlierWaits_map_rows hevent, hevent]
    exact h.first old hold (isSome_of_eq_some (hlock old delivery hdelivery))
  · obtain ⟨old, hold, rfl⟩ := mem_map.mp hrow
    obtain ⟨old', hold', rfl⟩ := mem_map.mp hother
    rw [hevent, hevent]
    exact h.one old hold old' hold' delivery (hlock old _ hr) (hlock old' _ ho)

end

variable {externalId : Option (Kind × String × Nat)}

theorem due_spec (h : w.due externalId = some row) :
    row ∈ w.announcements ∧ row.nextAttemptAt ≤ w.now ∧ w.earlierWaits row.event = false ∧
      row.claimedBy = none := by
  have hp := List.find?_some h
  simp only [Bool.and_eq_true, decide_eq_true_eq, Bool.not_eq_true', isNone_iff_eq_none] at hp
  exact ⟨mem_of_find?_eq_some h, hp.1.1.1, hp.1.2, hp.2⟩

variable {delivery : Nat}

theorem claimedBy_spec (h : w.claimedBy delivery = some row) :
    row ∈ w.announcements ∧ row.claimedBy = some delivery := by
  have hp := List.find?_some h
  exact ⟨mem_of_find?_eq_some h, of_decide_eq_true hp⟩

/-- A claim locks rows of one event, the first of its account. -/
theorem Locked.deliver (h : Locked w) (hnone : ¬(w.claimedBy delivery).isSome)
    (hdue : w.due externalId = some row) : Locked { w with
      announcements := w.changeRow row.event.externalId fun row =>
        { row with claimedBy := some delivery } } := by
  obtain ⟨-, -, hfirst, -⟩ := due_spec hdue
  have hevent : ∀ other : Announcement,
      (if other.event.externalId = row.event.externalId then
        { other with claimedBy := some delivery } else other).event = other.event := by
    intro other
    split <;> rfl
  have hfree : ∀ other ∈ w.announcements, other.claimedBy ≠ some delivery := by
    intro other hother hclaimed
    refine hnone ?_
    rw [World.claimedBy, List.find?_isSome]
    exact ⟨other, hother, decide_eq_true hclaimed⟩
  refine ⟨fun new hnew hclaimed => ?_, fun new hnew other hother taker hn ho => ?_⟩
  · obtain ⟨old, hold, rfl⟩ := mem_map.mp hnew
    rw [World.changeRow, earlierWaits_map_rows hevent, hevent]
    split at hclaimed
    · rename_i hsame
      -- The account and the revision are those of the row that is due.
      rw [Event.externalId, Event.externalId, Prod.mk.injEq, Prod.mk.injEq] at hsame
      have heq : w.earlierWaits old.event = w.earlierWaits row.event := by
        rw [World.earlierWaits, World.earlierWaits, hsame.2.1, hsame.2.2]
      rw [heq, hfirst]
    · exact h.first old hold hclaimed
  · obtain ⟨old, hold, rfl⟩ := mem_map.mp hnew
    obtain ⟨old', hold', rfl⟩ := mem_map.mp hother
    rw [hevent, hevent]
    split at hn
    · rename_i hsame
      cases hn
      split at ho
      · rename_i hsame'
        rw [hsame, hsame']
      · exact absurd ho (hfree old' hold')
    · split at ho
      · cases ho
        exact absurd hn (hfree old hold)
      · exact h.one old hold old' hold' taker hn ho

/-- What a commit leaves of an account's rows. -/
theorem rowsOf_commit (delivery : Nat) (acknowledged : List Event) : World.rowsOf { w with
        announcements := w.announcements.filter fun row => row.claimedBy ≠ some delivery
        acknowledged := acknowledged } userId =
      (w.rowsOf userId).filter fun row => row.claimedBy ≠ some delivery := by
  simp only [World.rowsOf, List.filter_filter, Bool.and_comm]

/-- **A delivery that commits acknowledges the first event of its account that waits.** -/
theorem Ordered.commit (h : Ordered first w userId) (hl : Locked w)
    (hrow : w.claimedBy delivery = some row) : Ordered first { w with
        announcements := w.announcements.filter fun row => row.claimedBy ≠ some delivery
        acknowledged := w.acknowledged ++ [row.event] } userId := by
  obtain ⟨hmem, hclaimed⟩ := claimedBy_spec hrow
  refine h.of_eq rfl rfl rfl ?_
  rw [rowsOf_commit]
  by_cases hsame : row.event.member.id = userId
  · obtain ⟨before, rest, hsplit⟩ := append_of_mem (mem_rowsOf.mpr ⟨hmem, hsame⟩)
    have hrising := h.rows_rising
    rw [hsplit, pairwise_append] at hrising
    obtain ⟨-, hrest, hbefore⟩ := hrising
    have hnil : before = [] := by
      refine eq_nil_iff_forall_not_mem.mpr fun earlier hearlier => ?_
      have hin : earlier ∈ w.rowsOf userId := by
        rw [hsplit]
        exact mem_append_left _ hearlier
      have hfirst := hl.first row hmem (isSome_of_eq_some hclaimed)
      rw [World.earlierWaits, List.any_eq_false] at hfirst
      refine hfirst earlier (mem_rowsOf.mp hin).1 ?_
      simp [(mem_rowsOf.mp hin).2, hsame, hbefore earlier hearlier row mem_cons_self]
    have hkept : (rest.filter fun row => row.claimedBy ≠ some delivery) = rest := by
      refine filter_eq_self.mpr fun later hlater => decide_eq_true fun hlocked => ?_
      have hin : later ∈ w.rowsOf userId := by
        rw [hsplit]
        exact mem_append_right _ (mem_cons_of_mem _ hlater)
      have hid := hl.one row hmem later (mem_rowsOf.mp hin).1 delivery hclaimed hlocked
      rw [Event.externalId, Event.externalId, Prod.mk.injEq, Prod.mk.injEq] at hid
      have hlt := rel_of_pairwise_cons hrest hlater
      omega
    rw [hsplit, hnil, nil_append, filter_cons_of_neg (by simp [hclaimed]), hkept]
    simp [World.acknowledgedOf, hsame]
  · have hkept : ((w.rowsOf userId).filter fun row => row.claimedBy ≠ some delivery) =
        w.rowsOf userId := by
      refine filter_eq_self.mpr fun other hother => decide_eq_true fun hlocked => hsame ?_
      obtain ⟨hother, hid⟩ := mem_rowsOf.mp hother
      have heq := hl.one row hmem other hother delivery hclaimed hlocked
      rw [Event.externalId, Event.externalId, Prod.mk.injEq, Prod.mk.injEq] at heq
      exact heq.2.1.trans hid
    rw [hkept]
    simp [World.acknowledgedOf, hsame]

theorem Locked.commit {acknowledged : List Event} (h : Locked w) : Locked { w with
        announcements := w.announcements.filter fun row => row.claimedBy ≠ some delivery
        acknowledged := acknowledged } := by
  refine ⟨fun row hrow hclaimed => ?_, fun row hrow other hother taker hr ho => ?_⟩
  · have hfirst := h.first row (mem_filter.mp hrow).1 hclaimed
    rw [World.earlierWaits, List.any_eq_false] at hfirst ⊢
    exact fun other hother => hfirst other (mem_filter.mp hother).1
  · exact h.one row (mem_filter.mp hrow).1 other (mem_filter.mp hother).1 taker hr ho

/-- Where every account's events stand, with the standings at the start, and the locks. -/
structure Inv (accounts : String → Account) (w : World) : Prop where
  ordered : ∀ userId, Ordered (accounts userId).isMember w userId
  locked : Locked w

theorem inv_start (now : Nat) {accounts : String → Account}
    (hstart : ∀ userId, (accounts userId).lifecycleRevision = 0) :
    Inv accounts (start now accounts) where
  ordered := fun userId => by
    refine ⟨?_, rfl, rfl⟩
    change [] = List.range' 1 (accounts userId).lifecycleRevision
    rw [hstart userId]
    rfl
  locked := ⟨fun row hrow => (nomatch hrow), fun row hrow => (nomatch hrow)⟩

/-- What a step records: nothing of an account that stays, and one event of one that moves. -/
def Records (w w' : World) (userId : String) : Prop :=
  (w'.eventsOf userId = w.eventsOf userId ∧
    (w'.accounts userId).lifecycleRevision = (w.accounts userId).lifecycleRevision ∧
    (w'.accounts userId).isMember = (w.accounts userId).isMember) ∨
  ∃ event, w'.eventsOf userId = w.eventsOf userId ++ [event] ∧
    event.revision = (w.accounts userId).lifecycleRevision + 1 ∧
    (w'.accounts userId).lifecycleRevision = event.revision ∧
    event.kind.after (w.accounts userId).isMember = some (w'.accounts userId).isMember

variable {normalizeGroup : String → String} {accounts : String → Account} {rest : List Announcement}

theorem Inv.moves (h : Inv accounts w) (hw : Moves w mover w') : Inv accounts w' where
  ordered := fun userId => (h.ordered userId).moves ⟨_, h.ordered mover⟩ hw
  locked := h.locked.moves (h.ordered mover) hw

theorem Inv.records_moves (h : Inv accounts w) (hw : Moves w mover w') (userId : String) :
    Records w w' userId := by
  cases hw with
  | stays account hrevision hmember =>
    refine .inl ⟨rfl, ?_⟩
    by_cases hsame : userId = mover
    · subst hsame
      rw [setAccount_accounts_self]
      exact ⟨hrevision, hmember⟩
    · rw [setAccount_accounts_of_ne account hsame]
      exact ⟨rfl, rfl⟩
  | moves account event hid hrevision haccount hkind =>
    rw [(h.ordered mover).fresh hid hrevision, if_neg Bool.false_ne_true]
    by_cases hsame : userId = mover
    · subst hsame
      have haccounts : ((w.setAccount userId account).queued event).accounts userId = account :=
        setAccount_accounts_self account
      refine .inr ⟨event, ?_, hrevision, ?_, ?_⟩
      · simp [World.eventsOf, World.queued, World.setAccount, hid]
      · rw [haccounts, haccount]
      · rw [haccounts, hkind]
    · have hother : ¬event.member.id = userId := fun heq => hsame (heq.symm.trans hid)
      have haccounts : ((w.setAccount mover account).queued event).accounts userId =
          w.accounts userId := setAccount_accounts_of_ne account hsame
      refine .inl ⟨?_, ?_⟩
      · simp [World.eventsOf, World.queued, World.setAccount, hother]
      · rw [haccounts]
        exact ⟨rfl, rfl⟩

theorem Records.refl (userId : String) : Records w w userId :=
  .inl ⟨rfl, rfl, rfl⟩

/-- **A step keeps every account's events in order, and records one event a transition.** -/
theorem inv_step {action : Action} (h : Inv accounts w) (hok : action.namesUser)
    (hs : step normalizeGroup w action = some w') :
    Inv accounts w' ∧ ∀ userId, Records w w' userId := by
  cases action with
  | tick now =>
    rw [step] at hs
    split at hs
    · cases hs
      exact ⟨⟨fun userId => (h.ordered userId).of_eq rfl rfl rfl rfl,
        ⟨h.locked.first, h.locked.one⟩⟩, .refl⟩
    · cases hs
  | recordStanding user userId now signIn answer =>
    obtain ⟨user, rfl⟩ := isSome_iff_exists.mp hok
    cases hs
    have hmoves := moves_recordStanding normalizeGroup w user userId now signIn answer
    exact ⟨h.moves hmoves, h.records_moves hmoves⟩
  | disable user userId now reason =>
    obtain ⟨user, rfl⟩ := isSome_iff_exists.mp hok
    cases hs
    have hmoves := moves_disable normalizeGroup w user userId now reason
    exact ⟨h.moves hmoves, h.records_moves hmoves⟩
  | deliver delivery externalId =>
    rw [step] at hs
    split at hs
    · cases hs
    · rename_i hnone
      cases hdue : w.due externalId with
      | none =>
        rw [hdue] at hs
        cases hs
        exact ⟨h, .refl⟩
      | some row =>
        rw [hdue] at hs
        cases hs
        refine ⟨⟨fun userId => (h.ordered userId).map_rows fun other => ?_,
          h.locked.deliver hnone hdue⟩, fun userId => .inl ⟨rfl, rfl, rfl⟩⟩
        split <;> rfl
  | commit delivery =>
    obtain ⟨row, hrow, rfl⟩ := map_eq_some_iff.mp hs
    exact ⟨⟨fun userId => (h.ordered userId).commit h.locked hrow, h.locked.commit⟩,
      fun userId => .inl ⟨rfl, rfl, rfl⟩⟩
  | abort delivery =>
    cases hs
    refine ⟨⟨fun userId => (h.ordered userId).map_rows fun row => ?_,
      h.locked.map_rows (fun row => ?_) fun row taker hclaimed => ?_⟩,
      fun userId => .inl ⟨rfl, rfl, rfl⟩⟩
    · split <;> rfl
    · split <;> rfl
    · split at hclaimed
      · cases hclaimed
      · exact hclaimed
  | recordFailure externalId attempts message =>
    rw [step] at hs
    split at hs
    · cases hs
    · cases hs
      refine ⟨⟨fun userId => (h.ordered userId).map_rows fun row => ?_,
        h.locked.map_rows (fun row => ?_) fun row taker hclaimed => ?_⟩,
        fun userId => .inl ⟨rfl, rfl, rfl⟩⟩
      · split <;> rfl
      · split <;> rfl
      · split at hclaimed
        · exact hclaimed
        · exact hclaimed

theorem inv_reachable {now : Nat} (hstart : ∀ userId, (accounts userId).lifecycleRevision = 0)
    (h : Reach (step normalizeGroup) (fun _ action => action.namesUser) (start now accounts) w) :
    Inv accounts w :=
  h.invariant (inv_start now hstart) fun _ _ _ hinv hok hs => (inv_step hinv hok hs).1

/-! ## Deliveries that succeed empty the queue -/

/-- Some delivery has no lock. -/
theorem exists_free_delivery (rows : List Announcement) :
    ∃ delivery, ∀ row ∈ rows, row.claimedBy ≠ some delivery := by
  have hbound : ∃ bound, ∀ row ∈ rows, ∀ taker, row.claimedBy = some taker → taker < bound := by
    induction rows with
    | nil => exact ⟨0, fun row hrow => nomatch hrow⟩
    | cons row rows ih =>
      obtain ⟨bound, hbound⟩ := ih
      refine ⟨max bound (row.claimedBy.getD 0 + 1), fun other hother taker htaker => ?_⟩
      rcases mem_cons.mp hother with rfl | hother
      · rw [htaker, getD_some]
        omega
      · have hlt := hbound other hother taker htaker
        omega
  obtain ⟨bound, hbound⟩ := hbound
  exact ⟨bound, fun row hrow hclaimed => Nat.lt_irrefl _ (hbound row hrow bound hclaimed)⟩

/-- The oldest row has none of its account before it. -/
theorem Inv.head_first (h : Inv accounts w)
    (hrows : w.announcements = row :: rest) : w.earlierWaits row.event = false := by
  rw [World.earlierWaits, List.any_eq_false]
  intro other hother hbefore
  rw [Bool.and_eq_true, decide_eq_true_eq, decide_eq_true_eq] at hbefore
  obtain ⟨hid, hlt⟩ := hbefore
  have hrising := (h.ordered row.event.member.id).rows_rising
  rw [World.rowsOf, hrows, filter_cons_of_pos (by simp)] at hrising
  rw [hrows] at hother
  rcases mem_cons.mp hother with rfl | hother
  · omega
  · have hgt := rel_of_pairwise_cons hrising (mem_filter.mpr ⟨hother, decide_eq_true hid⟩)
    omega

/-- A commit leaves fewer rows. -/
theorem step_commit (normalizeGroup : String → String) (h : w.claimedBy delivery = some row) :
    ∃ w', step normalizeGroup w (.commit delivery) = some w' ∧ w'.recorded = w.recorded ∧
      w'.announcements.length < w.announcements.length := by
  obtain ⟨hmem, hclaimed⟩ := claimedBy_spec h
  refine ⟨{ w with
    announcements := w.announcements.filter fun row => row.claimedBy ≠ some delivery
    acknowledged := w.acknowledged ++ [row.event] }, ?_, rfl, ?_⟩
  · rw [step, h]
    rfl
  · exact length_filter_lt_length_iff_exists.mpr ⟨row, hmem, by simp [hclaimed]⟩

/-- A delivery acknowledges the oldest row, whoever has its lock. -/
theorem Inv.deliver_head (normalizeGroup : String → String)
    (h : Inv accounts w) (hrows : w.announcements = row :: rest) :
    ∃ actions w', (∀ action ∈ actions, action.namesUser) ∧
      exec (step normalizeGroup) w actions = some w' ∧ w'.recorded = w.recorded ∧
      w'.announcements.length < w.announcements.length := by
  cases hclaimed : row.claimedBy with
  | some delivery =>
    have hfind : w.claimedBy delivery = some row := by
      rw [World.claimedBy, hrows, List.find?_cons_of_pos (by simpa using hclaimed)]
    obtain ⟨w', hcommit, hrecorded, hlt⟩ := step_commit normalizeGroup hfind
    refine ⟨[.commit delivery], w', fun action haction => ?_, ?_, hrecorded, hlt⟩
    · rw [mem_singleton.mp haction]
      trivial
    · rw [exec, hcommit]
      rfl
  | none =>
    obtain ⟨delivery, hfree⟩ := exists_free_delivery w.announcements
    let later := max w.now row.nextAttemptAt
    let w₁ : World := { w with now := later }
    let w₂ : World := { w₁ with
      announcements := w₁.changeRow row.event.externalId fun row =>
        { row with claimedBy := some delivery } }
    have hnone : w₁.claimedBy delivery = none :=
      List.find?_eq_none.mpr fun other hother => by simpa using hfree other hother
    have hdue : w₁.due (some row.event.externalId) = some row := by
      have hfirst : w₁.earlierWaits row.event = false := h.head_first hrows
      change List.find? _ w.announcements = some row
      rw [hrows, List.find?_cons_of_pos]
      have hdueNow : row.nextAttemptAt ≤ w₁.now := Nat.le_max_right ..
      simp [hfirst, hclaimed, hdueNow]
    have hfind : w₂.claimedBy delivery = some { row with claimedBy := some delivery } := by
      change List.find? _ (List.map _ w.announcements) = _
      rw [hrows, map_cons, if_pos rfl, List.find?_cons_of_pos (by simp)]
    have htick : step normalizeGroup w (.tick later) = some w₁ :=
      if_pos (Nat.le_max_left ..)
    have hdeliver : step normalizeGroup w₁ (.deliver delivery (some row.event.externalId)) =
        some w₂ := by
      rw [step, hnone, isSome_none, if_neg Bool.false_ne_true, hdue]
    obtain ⟨w', hcommit, hrecorded, hlt⟩ := step_commit normalizeGroup hfind
    refine ⟨[.tick later, .deliver delivery (some row.event.externalId), .commit delivery], w',
      fun action haction => ?_, ?_, hrecorded, Nat.lt_of_lt_of_eq hlt (length_map _)⟩
    · simp only [mem_cons, not_mem_nil, or_false] at haction
      rcases haction with rfl | rfl | rfl <;> trivial
    · rw [exec, htick, bind_some, exec, hdeliver, bind_some, exec, hcommit]
      rfl

/-- **From any state deliveries acknowledge everything that was recorded.** -/
theorem Inv.drains (h : Inv accounts w) :
    ∃ actions w', exec (step normalizeGroup) w actions = some w' ∧
      w'.recorded = w.recorded ∧ w'.announcements = [] := by
  induction hn : w.announcements.length using Nat.strong_induction_on generalizing w with
  | _ n ih =>
    cases hrows : w.announcements with
    | nil => exact ⟨[], w, rfl, rfl, hrows⟩
    | cons row rest =>
      obtain ⟨actions, w', hok, hexec, hrecorded, hlt⟩ :=
        h.deliver_head normalizeGroup hrows
      have hreach : Reach (step normalizeGroup) (fun _ action => action.namesUser) w w' :=
        reach_of_execAll (fun action haction _ => hok action haction) hexec
      have h' : Inv accounts w' :=
        hreach.invariant h fun _ _ _ hinv hok hs => (inv_step hinv hok hs).1
      obtain ⟨actions', w'', hexec', hrecorded', hnil⟩ := ih _ (hn ▸ hlt) h' rfl
      refine ⟨actions ++ actions', w'', ?_, hrecorded'.trans hrecorded, hnil⟩
      rw [exec_append, hexec, bind_some, hexec']

/-! ## Every run -/

/--
**Directory events are in order, and each is acknowledged once.** In every state a run reaches
the events of an account carry the revisions from one to the account's own, and take the
account from where it stood at the start to where it stands: it joins only from outside, and
leaves or changes groups only as a member. Those acknowledged and those that wait, in this
order, are all its events. Every step records one event for a transition and none without,
and from every state there are deliveries that acknowledge every event recorded so far.
-/
theorem directory_events_once {now : Nat}
    (hstart : ∀ userId, (accounts userId).lifecycleRevision = 0)
    (h : Reach (step normalizeGroup) (fun _ action => action.namesUser) (start now accounts) w) :
    (∀ userId, (w.eventsOf userId).map Event.revision =
          List.range' 1 (w.accounts userId).lifecycleRevision ∧
        standingAfter (accounts userId).isMember ((w.eventsOf userId).map Event.kind) =
          some (w.accounts userId).isMember ∧
        w.acknowledgedOf userId ++ (w.rowsOf userId).map Announcement.event = w.eventsOf userId) ∧
    (∀ action w', action.namesUser → step normalizeGroup w action = some w' →
      ∀ userId, Records w w' userId) ∧
    ∃ actions w', exec (step normalizeGroup) w actions = some w' ∧
      w'.recorded = w.recorded ∧ w'.announcements = [] := by
  have hinv := inv_reachable hstart h
  refine ⟨fun userId => ?_, fun action w' hok hs => (inv_step hinv hok hs).2, hinv.drains⟩
  have hordered := hinv.ordered userId
  exact ⟨hordered.revisions, hordered.standing, hordered.once⟩

/-- A member joins, changes groups while the first event waits, leaves, and joins again. -/
def memberRun : List Action :=
  [.recordStanding (some ⟨"A@b", "a"⟩) "a" 1 true (some ⟨["x"], ["x"]⟩), .deliver 0 none,
    .recordStanding (some ⟨"A@b", "a"⟩) "a" 2 false (some ⟨[], ["x"]⟩),
    .deliver 1 none,
    .abort 0,
    .recordFailure (.memberJoined, "a", 1) 0 "unreachable",
    .disable (some ⟨"A@b", "a"⟩) "a" 3 "gone",
    .tick 10,
    .deliver 1 none,
    .commit 1,
    .recordStanding (some ⟨"A@b", "a"⟩) "a" 11 true none]

theorem directory_events_once_memberRun :
    ∃ w, execOk (step id) (fun _ action => action.namesUser) (start 0 fun _ => {}) memberRun =
        some w ∧
      w.acknowledgedOf "a" ++ (w.rowsOf "a").map Announcement.event = w.eventsOf "a" ∧
      (w.eventsOf "a").map Event.kind =
        [.memberJoined, .groupsChanged, .memberLeft, .memberJoined] := by
  have hrun : (execOk (step id) (fun _ action => action.namesUser) (start 0 fun _ => {})
      memberRun).map (fun w => (w.eventsOf "a").map Event.kind) =
      some [.memberJoined, .groupsChanged, .memberLeft, .memberJoined] := by
    decide +kernel
  obtain ⟨w, hw, hkinds⟩ := map_eq_some_iff.mp hrun
  have hevents := (directory_events_once (fun _ => rfl) (reach_of_execOk hw)).1 "a"
  exact ⟨w, hw, hevents.2.2, hkinds⟩

/--
**Deliveries at one time are of different accounts**, and each is of one event, so that none
overtakes another of its account.
-/
theorem deliveries_apart {now : Nat} (hstart : ∀ userId, (accounts userId).lifecycleRevision = 0)
    (h : Reach (step normalizeGroup) (fun _ action => action.namesUser) (start now accounts) w) :
    ∀ row ∈ w.announcements, ∀ other ∈ w.announcements,
      row.claimedBy.isSome → other.claimedBy.isSome →
        (row.event.member.id = other.event.member.id →
          row.event.revision = other.event.revision) ∧
        (row.claimedBy = other.claimedBy → row.event.externalId = other.event.externalId) := by
  have hlocked := (inv_reachable hstart h).locked
  have hle : ∀ row ∈ w.announcements, ∀ other ∈ w.announcements, row.claimedBy.isSome →
      row.event.member.id = other.event.member.id →
        row.event.revision ≤ other.event.revision := by
    intro row hrow other hother hclaimed hsame
    refine Nat.le_of_not_lt fun hlt => ?_
    have hfirst := hlocked.first row hrow hclaimed
    rw [World.earlierWaits, List.any_eq_false] at hfirst
    exact hfirst other hother (by simp [hsame, hlt])
  intro row hrow other hother hclaimed hclaimed'
  refine ⟨fun hsame => Nat.le_antisymm (hle row hrow other hother hclaimed hsame)
    (hle other hother row hrow hclaimed' hsame.symm), fun hsame => ?_⟩
  obtain ⟨delivery, hdelivery⟩ := isSome_iff_exists.mp hclaimed
  exact hlocked.one row hrow other hother delivery hdelivery (hsame ▸ hdelivery)

/-- Two members join, and their events are delivered at one time. -/
def twoMembers : List Action :=
  [.recordStanding (some ⟨"A@b", "a"⟩) "a" 1 true none,
    .recordStanding (some ⟨"B@b", "b"⟩) "b" 1 true none, .deliver 0 none, .deliver 1 none]

theorem deliveries_apart_twoMembers : ∃ w,
    execOk (step id) (fun _ action => action.namesUser) (start 0 fun _ => {}) twoMembers = some w ∧
      w.announcements.map Announcement.claimedBy = [some 0, some 1] ∧
      ∀ row ∈ w.announcements, ∀ other ∈ w.announcements, row.claimedBy.isSome →
        other.claimedBy.isSome → row.event.member.id = other.event.member.id →
          row.event.revision = other.event.revision := by
  have hrun : (execOk (step id) (fun _ action => action.namesUser) (start 0 fun _ => {})
      twoMembers).map (fun w => w.announcements.map Announcement.claimedBy) =
      some [some 0, some 1] := by
    decide +kernel
  obtain ⟨w, hw, hclaims⟩ := map_eq_some_iff.mp hrun
  refine ⟨w, hw, hclaims, fun row hrow other hother hlocked hlocked' => ?_⟩
  exact (deliveries_apart (fun _ => rfl) (reach_of_execOk hw) row hrow other hother hlocked
    hlocked').1

end Catamorphic.Identity.Directory
