import Catamorphic.Lib.RowLocks
import Catamorphic.Lib.Runs
import Catamorphic.Sessions.Protocol

/-!
# Attention revisions

A session counts what asks for its owner's attention. A delivered message and a request add one to
the count as it stands under the row's lock, a turn's settlement adds one to what the drive of the
turn read when it began. A client that acknowledged a revision is told of what comes after it, as
long as the count only grows.
-/

namespace Catamorphic.Sessions.Attention

open Protocol RowLocks Runs Function Option

abbrev TxnId := Nat
abbrev DriveId := Nat

/-- What counts attention in a row of `agent_sessions`. -/
structure SessionRow where
  attentionRevision : Nat
  attentionSeenRevision : Nat
  deriving DecidableEq

/-- The client is told to look. -/
def SessionRow.attention (row : SessionRow) : Bool :=
  decide (row.attentionSeenRevision < row.attentionRevision)

/-- What adds to the count. -/
inductive Bump
  /-- A turn fails, or notifies: `session` as the drive of the turn read it. -/
  | settle (session : SessionRow)
  /-- A message asks for attention. -/
  | deliver
  | requestAttention
  deriving DecidableEq

inductive Stage
  | begun
  /-- The row is locked, and was read under the lock. -/
  | locked (session : SessionRow)
  | written
  deriving DecidableEq

structure Txn where
  sessionId : Id
  bump : Bump
  stage : Stage
  deriving DecidableEq

structure World where
  sessions : Store Id SessionRow TxnId
  /-- The session of each drive, as it read it. -/
  drives : DriveId → Option (Id × SessionRow)
  txns : TxnId → Option Txn

def start : World where
  sessions := .start fun _ => none
  drives := fun _ => none
  txns := fun _ => none

def World.setTxn (w : World) (t : TxnId) (txn : Txn) : World :=
  { w with txns := update w.txns t (some txn) }

/-- The row as the bump's own statement leaves it, after what was read under the lock. -/
def Bump.write (locked row : SessionRow) : Bump → SessionRow
  | .settle session => { row with attentionRevision := session.attentionRevision + 1 }
  | .deliver => { row with attentionRevision := locked.attentionRevision + 1 }
  | .requestAttention => { row with attentionRevision := row.attentionRevision + 1 }

/-- The next statement of a transaction; none while another transaction holds the row. -/
def World.advance (w : World) (t : TxnId) (txn : Txn) : Option World :=
  match w.sessions.view t txn.sessionId with
  | none => none
  | some row =>
    if w.sessions.free t txn.sessionId then
      match txn.stage, txn.bump with
      | .begun, .requestAttention =>
        some ({ w with
          sessions := w.sessions.hold t txn.sessionId
            (some (txn.bump.write row row)) }.setTxn t { txn with stage := .written })
      | .begun, _ =>
        some ({ w with sessions := w.sessions.hold t txn.sessionId (some row) }.setTxn t
          { txn with stage := .locked row })
      | .locked session, bump =>
        some ({ w with
          sessions := w.sessions.hold t txn.sessionId
            (some (bump.write session row)) }.setTxn t { txn with stage := .written })
      | .written, _ => none
    else none

/-- The person looked, at what their client last saw of the session or at all of it. -/
def SessionRow.acknowledge (row : SessionRow) (observedRevision : Option Nat) : SessionRow :=
  { row with
    attentionSeenRevision :=
      match observedRevision with
      | none => row.attentionRevision
      | some observed => max row.attentionSeenRevision (min row.attentionRevision observed) }

inductive Event
  | create (sessionId : Id)
  /-- A drive of a turn begins, and reads its session. -/
  | drive (drive : DriveId) (sessionId : Id)
  /-- Its turn settles so that it asks for attention. -/
  | settle (t : TxnId) (drive : DriveId)
  | deliver (t : TxnId) (sessionId : Id)
  | requestAttention (t : TxnId) (sessionId : Id)
  /-- A transaction's next statement. -/
  | advance (t : TxnId)
  | commit (t : TxnId)
  | rollback (t : TxnId)
  | acknowledgeAttention (sessionId : Id) (observedRevision : Option Nat)

def World.begin (w : World) (t : TxnId) (sessionId : Id) (bump : Bump) : Option World :=
  if (w.txns t).isNone then some (w.setTxn t ⟨sessionId, bump, .begun⟩) else none

def step (w : World) : Event → Option World
  | .create sessionId =>
    if (w.sessions.rows sessionId).isNone then
      some { w with
        sessions := { w.sessions with
          rows := update w.sessions.rows sessionId (some ⟨0, 0⟩) } }
    else none
  | .drive drive sessionId =>
    (w.sessions.rows sessionId).map fun row =>
      { w with drives := update w.drives drive (some (sessionId, row)) }
  | .settle t drive =>
    (w.drives drive).bind fun (sessionId, session) => w.begin t sessionId (.settle session)
  | .deliver t sessionId => w.begin t sessionId .deliver
  | .requestAttention t sessionId => w.begin t sessionId .requestAttention
  | .advance t => (w.txns t).bind (w.advance t)
  | .commit t =>
    (w.txns t).bind fun txn =>
      if txn.stage = .written then
        some { w with
          sessions := w.sessions.commit t
          txns := update w.txns t none }
      else none
  | .rollback t =>
    some { w with
      sessions := w.sessions.rollback t
      txns := update w.txns t none }
  | .acknowledgeAttention sessionId observedRevision =>
    match w.sessions.held sessionId, w.sessions.rows sessionId with
    | none, some row =>
      some { w with
        sessions := { w.sessions with
          rows := update w.sessions.rows sessionId
            (some (row.acknowledge observedRevision)) } }
    | _, _ => none

/-! ## Every bump counts -/

/-- The session that an event commits a bump of. -/
def bumped (w : World) : Event → Option Id
  | .commit t => (w.txns t).map Txn.sessionId
  | _ => none

/-- No revision is lost in a step, and a bump adds to it and is told. -/
def Counts (w : World) (e : Event) (w' : World) : Prop :=
  ∀ sessionId row, w.sessions.rows sessionId = some row →
    ∃ row', w'.sessions.rows sessionId = some row' ∧
      row.attentionRevision ≤ row'.attentionRevision ∧
      (bumped w e = some sessionId →
        row.attentionRevision + 1 ≤ row'.attentionRevision ∧ row'.attention = true)

/-- A settlement writes the session as its drive read it, less what was counted since. -/
def current (w : World) : Event → Bool
  | .advance t =>
    match w.txns t with
    | some ⟨sessionId, .settle session, .locked _⟩ =>
      (w.sessions.view t sessionId).all fun row : SessionRow =>
        row.attentionRevision ≤ session.attentionRevision
    | _ => true
  | _ => true

/-- Nothing was counted since the drive of a turn that settles began. -/
abbrev Current (w : World) (e : Event) : Prop := current w e = true

/-- How a transaction leaves the row that it holds. -/
def Txn.Leaves (before row : SessionRow) (txn : Txn) : Prop :=
  match txn.stage with
  | .begun => False
  | .locked session => row = before ∧ session = before
  | .written => row.attentionSeenRevision = before.attentionSeenRevision ∧
      before.attentionRevision + 1 ≤ row.attentionRevision

structure Sound (w : World) : Prop where
  seen : ∀ sessionId row, w.sessions.rows sessionId = some row →
    row.attentionSeenRevision ≤ row.attentionRevision
  /-- Who holds a row left it by what its transaction came to. -/
  held : ∀ sessionId t row, w.sessions.held sessionId = some (t, row) →
    ∃ txn before after, w.txns t = some txn ∧ txn.sessionId = sessionId ∧
      w.sessions.rows sessionId = some before ∧ row = some after ∧ txn.Leaves before after
  /-- A transaction past its first statement holds its row. -/
  holds : ∀ t txn, w.txns t = some txn → txn.stage ≠ .begun →
    ∃ row, w.sessions.held txn.sessionId = some (t, row)

variable {w w' : World} {t t' : TxnId} {txn txn' : Txn} {e : Event} {sessionId : Id}
  {row : SessionRow} {bump : Bump}

theorem sound_start : Sound start where
  seen := fun _ _ h => nomatch h
  held := fun _ _ _ h => nomatch h
  holds := fun _ _ h => nomatch h

section

variable (h : Sound w) (ht : w.txns t = some txn)
include h ht

/-- A transaction that has done nothing holds nothing. -/
theorem Sound.unheld (hstage : txn.stage = .begun) :
    ∀ row, w.sessions.held sessionId ≠ some (t, row) := by
  intro row hheld
  obtain ⟨txn', before, after, ht', -, -, -, hleaves⟩ := h.held sessionId t row hheld
  cases ht.symm.trans ht'
  rw [Txn.Leaves, hstage] at hleaves
  exact hleaves

omit h ht in
theorem leaves_written {before after : SessionRow}
    (hseen : after.attentionSeenRevision = before.attentionSeenRevision)
    (hadds : before.attentionRevision + 1 ≤ after.attentionRevision) :
    Txn.Leaves before after ⟨sessionId, bump, .written⟩ :=
  ⟨hseen, hadds⟩

/-- **What a transaction's statement does**: it leaves the row that it holds as it may. -/
theorem advance_cases (hcurrent : Current w (.advance t)) (hs : w.advance t txn = some w') :
    ∃ before after txn', w.sessions.rows txn.sessionId = some before ∧
      w.sessions.free t txn.sessionId = true ∧ txn'.Leaves before after ∧
      txn'.sessionId = txn.sessionId ∧
      w' = { w with sessions := w.sessions.hold t txn.sessionId (some after) }.setTxn t txn' := by
  obtain ⟨sessionId, bump, stage⟩ := txn
  unfold World.advance at hs
  cases hview : w.sessions.view t sessionId with
  | none =>
    rw [hview] at hs
    cases hs
  | some row =>
    simp only [hview] at hs
    by_cases hfree : w.sessions.free t sessionId = true
    · rw [if_pos hfree] at hs
      cases stage with
      | begun =>
        have hrow : w.sessions.rows sessionId = some row := by
          rw [← hview, view_of_not_held (h.unheld ht rfl)]
        cases bump with
        | requestAttention =>
          cases hs
          exact ⟨row, Bump.requestAttention.write row row,
            ⟨sessionId, .requestAttention, .written⟩, hrow, hfree,
            leaves_written rfl (Nat.le_refl _), rfl, rfl⟩
        | settle session =>
          cases hs
          exact ⟨row, row, ⟨sessionId, .settle session, .locked row⟩, hrow, hfree,
            ⟨rfl, rfl⟩, rfl, rfl⟩
        | deliver =>
          cases hs
          exact ⟨row, row, ⟨sessionId, .deliver, .locked row⟩, hrow, hfree, ⟨rfl, rfl⟩,
            rfl, rfl⟩
      | locked session =>
        obtain ⟨held, hheld⟩ := h.holds t _ ht (fun hbegun => by cases hbegun)
        obtain ⟨txn', before, after, ht', -, hrow, hafter, hleaves⟩ :=
          h.held sessionId t held hheld
        cases ht.symm.trans ht'
        -- The lock is held since the row was read: it stands as it did.
        obtain ⟨rfl, rfl⟩ : after = before ∧ session = before := hleaves
        have hsame : row = session := by
          rw [view_held hheld, hafter] at hview
          exact (some.inj hview).symm
        subst hsame
        refine ⟨row, bump.write row row, ⟨sessionId, bump, .written⟩, hrow, hfree, ?_, rfl,
          (some.inj hs).symm⟩
        cases bump with
        | settle session' =>
          rw [Current, current, ht] at hcurrent
          simp only [hview] at hcurrent
          exact leaves_written rfl (Nat.succ_le_succ (of_decide_eq_true hcurrent))
        | deliver | requestAttention => exact leaves_written rfl (Nat.le_refl _)
      | written => cases hs
    · rw [if_neg hfree] at hs
      cases hs

theorem Sound.advance (hcurrent : Current w (.advance t)) (hs : w.advance t txn = some w') :
    Sound w' ∧ w'.sessions.rows = w.sessions.rows := by
  obtain ⟨before, after, txn', hrow, hfree, hleaves, hsession, rfl⟩ :=
    advance_cases h ht hcurrent hs
  have htxns : ∀ {t'}, t' ≠ t → update w.txns t (some txn') t' = w.txns t' :=
    fun hne => update_of_ne hne ..
  refine ⟨⟨h.seen, fun sessionId t' row hheld => ?_, fun t' txn₁ ht' hstage => ?_⟩, rfl⟩
  · rcases hold_some hheld with ⟨rfl, rfl, rfl⟩ | ⟨hother, hheld⟩
    · exact ⟨txn', before, after, update_self .., hsession, hrow, rfl, hleaves⟩
    · obtain ⟨txn₁, before₁, after₁, ht₁, hsession₁, hrest⟩ := h.held sessionId t' row hheld
      have hne : t' ≠ t := by
        rintro rfl
        cases ht.symm.trans ht₁
        exact hother hsession₁.symm
      exact ⟨txn₁, before₁, after₁, (htxns hne).trans ht₁, hsession₁, hrest⟩
  · by_cases heq : t' = t
    · subst heq
      have htxn : update w.txns t' (some txn') t' = some txn₁ := ht'
      rw [update_self] at htxn
      cases htxn
      rw [hsession]
      exact ⟨some after, hold_held_self⟩
    · obtain ⟨row, hheld⟩ := h.holds t' txn₁ ((htxns heq).symm.trans ht') hstage
      refine ⟨row, ?_⟩
      have hother : txn₁.sessionId ≠ txn.sessionId := by
        intro hsame
        rw [hsame] at hheld
        exact heq (eq_of_free hfree hheld)
      exact (hold_held_of_ne hother).trans hheld

omit h ht in
theorem txns_of_end (h : update w.txns t none t' = some txn) : t' ≠ t ∧ w.txns t' = some txn := by
  by_cases heq : t' = t
  · rw [heq, update_self] at h
    cases h
  · rw [update_of_ne heq] at h
    exact ⟨heq, h⟩

omit h ht in
/-- A transaction ends, and its session's row is as it was or as it left it. -/
theorem Sound.ends (h : Sound w) (hsessions : w'.sessions.held = (w.sessions.rollback t).held)
    (htxns : w'.txns = update w.txns t none)
    (hrows : ∀ sessionId, w'.sessions.rows sessionId = w.sessions.rows sessionId ∨
      w'.sessions.rows sessionId = w.sessions.view t sessionId)
    (hseen : ∀ sessionId row, w'.sessions.rows sessionId = some row →
      row.attentionSeenRevision ≤ row.attentionRevision) : Sound w' where
  seen := hseen
  held := fun sessionId t' row hheld => by
    rw [hsessions] at hheld
    obtain ⟨hne, hheld⟩ := rollback_some hheld
    obtain ⟨txn, before, after, ht, hsession, hrow, hrest⟩ := h.held sessionId t' row hheld
    refine ⟨txn, before, after, ?_, hsession, ?_, hrest⟩
    · rw [htxns, update_of_ne hne, ht]
    · rcases hrows sessionId with hsame | hview
      · rw [hsame, hrow]
      · rw [hview, view_other hheld hne, hrow]
  holds := fun t' txn ht hstage => by
    rw [htxns] at ht
    obtain ⟨hne, ht⟩ := txns_of_end ht
    obtain ⟨row, hheld⟩ := h.holds t' txn ht hstage
    exact ⟨row, by rw [hsessions, rollback_held_other hheld hne]⟩

/-- A row that the transaction leaves at its end. -/
theorem Sound.committed (hstage : txn.stage = .written) :
    ∃ before after, w.sessions.rows txn.sessionId = some before ∧
      w.sessions.view t txn.sessionId = some after ∧
      after.attentionSeenRevision = before.attentionSeenRevision ∧
      before.attentionRevision + 1 ≤ after.attentionRevision := by
  obtain ⟨row, hheld⟩ := h.holds t txn ht (by rw [hstage]; nofun)
  obtain ⟨txn', before, after, ht', -, hrow, rfl, hleaves⟩ := h.held _ t row hheld
  cases ht.symm.trans ht'
  rw [Txn.Leaves, hstage] at hleaves
  exact ⟨before, after, hrow, view_held hheld, hleaves.1, hleaves.2⟩

/-- Every other row stays. -/
theorem Sound.commit_other (hne : sessionId ≠ txn.sessionId) :
    w.sessions.view t sessionId = w.sessions.rows sessionId := by
  refine view_of_not_held fun row hheld => ?_
  obtain ⟨txn', before, after, ht', hsession, -⟩ := h.held sessionId t row hheld
  cases ht.symm.trans ht'
  exact hne hsession.symm

end

theorem counts_of_rows (hrows : ∀ sessionId row, w.sessions.rows sessionId = some row →
      ∃ row', w'.sessions.rows sessionId = some row' ∧
        row.attentionRevision = row'.attentionRevision)
    (hbumped : ∀ sessionId, bumped w e ≠ some sessionId) : Counts w e w' := by
  intro sessionId row hrow
  obtain ⟨row', hrow', hsame⟩ := hrows sessionId row hrow
  exact ⟨row', hrow', Nat.le_of_eq hsame, fun hb => absurd hb (hbumped sessionId)⟩

theorem counts_same (hrows : w'.sessions.rows = w.sessions.rows)
    (hbumped : ∀ sessionId, bumped w e ≠ some sessionId) : Counts w e w' :=
  counts_of_rows (fun _ row hrow => ⟨row, by rw [hrows, hrow], rfl⟩) hbumped

theorem begin_sound (h : Sound w) (hs : w.begin t sessionId bump = some w') :
    Sound w' ∧ w'.sessions.rows = w.sessions.rows := by
  unfold World.begin at hs
  split at hs
  next hnone =>
    cases hs
    have hidle : w.txns t = none := isNone_iff_eq_none.mp hnone
    refine ⟨⟨h.seen, fun sessionId' t' row hheld => ?_, fun t' txn ht hstage => ?_⟩, rfl⟩
    · obtain ⟨txn, before, after, ht, hrest⟩ := h.held sessionId' t' row hheld
      have hne : t' ≠ t := by
        rintro rfl
        rw [hidle] at ht
        cases ht
      exact ⟨txn, before, after, (update_of_ne hne ..).trans ht, hrest⟩
    · have ht' : update w.txns t _ t' = some txn := ht
      by_cases heq : t' = t
      · rw [heq, update_self] at ht'
        cases ht'
        exact absurd rfl hstage
      · rw [update_of_ne heq] at ht'
        exact h.holds t' txn ht' hstage
  next => cases hs

theorem acknowledge_seen (row : SessionRow) (observedRevision : Option Nat)
    (h : row.attentionSeenRevision ≤ row.attentionRevision) :
    (row.acknowledge observedRevision).attentionSeenRevision ≤
      (row.acknowledge observedRevision).attentionRevision := by
  cases observedRevision with
  | none => exact Nat.le_refl _
  | some observed => exact Nat.max_le.mpr ⟨h, Nat.min_le_left _ _⟩

/-- The row of a session that no transaction holds is changed, or added. -/
theorem Sound.setRow (h : Sound w) {rows : Id → Option SessionRow}
    (hother : ∀ sessionId' ≠ sessionId, rows sessionId' = w.sessions.rows sessionId')
    (hrow : rows sessionId = some row) (hseen : row.attentionSeenRevision ≤ row.attentionRevision)
    (hfree : ∀ t row, w.sessions.held sessionId ≠ some (t, row)) :
    Sound { w with sessions := { w.sessions with rows } } where
  seen := fun sessionId' row' hrow' => by
    by_cases heq : sessionId' = sessionId
    · subst heq
      have hsame : rows sessionId' = some row' := hrow'
      rwa [← some.inj (hrow.symm.trans hsame)]
    · exact h.seen sessionId' row' ((hother sessionId' heq).symm.trans hrow')
  held := fun sessionId' t row' hheld => by
    obtain ⟨txn, before, after, ht, hsession, hbefore, hrest⟩ := h.held sessionId' t row' hheld
    have hne : sessionId' ≠ sessionId := by
      rintro rfl
      exact hfree t row' hheld
    exact ⟨txn, before, after, ht, hsession, (hother sessionId' hne).trans hbefore, hrest⟩
  holds := h.holds

theorem Sound.step (h : Sound w) (hcurrent : Current w e) (hs : step w e = some w') :
    Sound w' ∧ Counts w e w' := by
  cases e with
  | create sessionId =>
    rw [Attention.step] at hs
    split at hs
    next hnone =>
      cases hs
      have hfresh : w.sessions.rows sessionId = none := isNone_iff_eq_none.mp hnone
      refine ⟨h.setRow (fun _ hne => update_of_ne hne ..) (update_self ..)
        (Nat.le_refl _) fun t row hheld => ?_,
        counts_of_rows (fun sessionId' row hrow => ?_) nofun⟩
      · obtain ⟨txn, before, after, -, -, hbefore, -⟩ := h.held sessionId t row hheld
        rw [hfresh] at hbefore
        cases hbefore
      · refine ⟨row, ?_, rfl⟩
        have hne : sessionId' ≠ sessionId := by
          rintro rfl
          rw [hfresh] at hrow
          cases hrow
        exact (update_of_ne hne ..).trans hrow
    next => cases hs
  | drive drive sessionId =>
    obtain ⟨row, -, rfl⟩ := map_eq_some_iff.mp hs
    exact ⟨⟨h.seen, h.held, h.holds⟩, counts_same rfl nofun⟩
  | settle t drive =>
    obtain ⟨⟨sessionId, session⟩, -, hs⟩ := bind_eq_some_iff.mp hs
    obtain ⟨hsound, hrows⟩ := begin_sound h hs
    exact ⟨hsound, counts_same hrows nofun⟩
  | deliver t sessionId | requestAttention t sessionId =>
    obtain ⟨hsound, hrows⟩ := begin_sound h hs
    exact ⟨hsound, counts_same hrows nofun⟩
  | advance t =>
    obtain ⟨txn, ht, hs⟩ := bind_eq_some_iff.mp hs
    obtain ⟨hsound, hrows⟩ := h.advance ht hcurrent hs
    exact ⟨hsound, counts_same hrows nofun⟩
  | commit t =>
    obtain ⟨txn, ht, hs⟩ := bind_eq_some_iff.mp hs
    split at hs
    next hstage =>
      cases hs
      obtain ⟨before, after, hbefore, hafter, hseen, hadds⟩ := h.committed ht hstage
      have htold : after.attentionSeenRevision < after.attentionRevision := by
        rw [hseen]
        exact Nat.lt_of_le_of_lt (h.seen _ before hbefore) hadds
      refine ⟨h.ends rfl rfl (fun _ => .inr rfl) fun sessionId row hrow => ?_,
        fun sessionId row hrow => ?_⟩
      · have hview : w.sessions.view t sessionId = some row := hrow
        by_cases heq : sessionId = txn.sessionId
        · rw [heq, hafter] at hview
          cases hview
          exact Nat.le_of_lt htold
        · rw [h.commit_other ht heq] at hview
          exact h.seen sessionId row hview
      · by_cases heq : sessionId = txn.sessionId
        · subst heq
          cases hbefore.symm.trans hrow
          exact ⟨after, hafter, Nat.le_of_succ_le hadds, fun _ => ⟨hadds, decide_eq_true htold⟩⟩
        · refine ⟨row, (h.commit_other ht heq).trans hrow, Nat.le_refl _, fun hb => ?_⟩
          rw [bumped, ht] at hb
          exact absurd (some.inj hb).symm heq
    next => cases hs
  | rollback t =>
    cases hs
    exact ⟨h.ends rfl rfl (fun _ => .inl rfl) h.seen, counts_same rfl nofun⟩
  | acknowledgeAttention sessionId observedRevision =>
    rw [Attention.step] at hs
    split at hs
    next row hheld hrow =>
      cases hs
      refine ⟨h.setRow (fun _ hne => update_of_ne hne ..) (update_self ..)
        (acknowledge_seen row observedRevision (h.seen sessionId row hrow))
        (fun t row' hheld' => by rw [hheld] at hheld'; cases hheld'),
        counts_of_rows (fun sessionId' row' hrow' => ?_) nofun⟩
      by_cases heq : sessionId' = sessionId
      · subst heq
        cases hrow.symm.trans hrow'
        exact ⟨_, update_self .., rfl⟩
      · exact ⟨row', (update_of_ne heq ..).trans hrow', rfl⟩
    next => cases hs

/-- **Every bump counts** in a run where no turn settles that began before another bump. -/
theorem counts_of_current (h : Reach step Current start w) (hcurrent : Current w e)
    (hs : step w e = some w') : Counts w e w' := by
  have hsound : Sound w := h.invariant sound_start fun _ _ _ hsound hok hs =>
    (hsound.step hok hs).1
  exact (hsound.step hcurrent hs).2

/-- What a session's row shows. -/
def World.shows (w : World) : Option (Nat × Nat) :=
  (w.sessions.rows 1).map fun row => (row.attentionRevision, row.attentionSeenRevision)

/-- A turn fails after a message that asked for attention before its drive began. -/
def failedAfter : List Event :=
  [.create 1, .deliver 1 1, .advance 1, .advance 1, .commit 1, .acknowledgeAttention 1 none,
    .drive 1 1, .settle 2 1, .advance 2, .advance 2]

theorem counts_of_current_failed : ∃ w w', execOk step Current start failedAfter = some w ∧
    step w (.commit 2) = some w' ∧ Counts w (.commit 2) w' := by
  have hrun : (execOk step Current start failedAfter).bind (fun w =>
      (step w (.commit 2)).map World.shows) = some (some (2, 1)) := by decide +kernel
  obtain ⟨w, hw, hs⟩ := bind_eq_some_iff.mp hrun
  obtain ⟨w', hs, -⟩ := map_eq_some_iff.mp hs
  exact ⟨w, w', hw, hs, counts_of_current (reach_of_execOk hw) rfl hs⟩

/-- Two messages ask for attention while a turn is driven, and are seen. -/
def failedBehind : List Event :=
  [.create 1, .drive 1 1, .deliver 1 1, .advance 1, .advance 1, .commit 1, .requestAttention 2 1,
    .advance 2, .commit 2, .acknowledgeAttention 1 none, .settle 3 1, .advance 3, .advance 3]

/-- **A failure is not told, and the count falls**: the settlement adds to what was read before. -/
theorem behind_not_counted : ¬∀ w e w', Reach step anyEvent start w → step w e = some w' →
    Counts w e w' := by
  intro hclaim
  have hrun : (exec step start failedBehind).bind (fun w =>
      (step w (.commit 3)).map fun w' => (w.shows, w'.shows)) =
        some (some (2, 2), some (1, 2)) := by decide +kernel
  obtain ⟨w, hw, hs⟩ := bind_eq_some_iff.mp hrun
  obtain ⟨w', hs, hshows⟩ := map_eq_some_iff.mp hs
  obtain ⟨hbefore, hafter⟩ := Prod.mk.inj hshows
  obtain ⟨row, hrow, hrev⟩ := map_eq_some_iff.mp hbefore
  obtain ⟨row', hrow', hrev'⟩ := map_eq_some_iff.mp hafter
  obtain ⟨row₁, hrow₁, hle, -⟩ := hclaim w (.commit 3) w' (reach_of_exec hw) hs 1 row hrow
  cases hrow'.symm.trans hrow₁
  rw [(Prod.mk.inj hrev).1, (Prod.mk.inj hrev').1] at hle
  exact absurd hle (by decide)

end Catamorphic.Sessions.Attention
