import Catamorphic.Sessions.Commands
import Mathlib.Data.List.Nodup
import Mathlib.Data.List.Range

/-!
# Session commands run at most once

Whatever the interleaving, and whoever crashes where: the body of a command id commits at
most once, everyone answered for that id has the receipt that is stored, and a command that
was rejected left nothing in the log.
-/

namespace Catamorphic.Sessions.Commands

open Protocol Log State Function List Option

variable {s s' : State}

/-! ## Batches -/

/-- A batch is numbered on from where the log stands. -/
theorem stored_sequence (sessionId : Id) (commandId : Option CommandId) (clock : Date)
    (sequence : Nat) (events : List SessionEvent) :
    (stored sessionId commandId clock sequence events).map StoredSessionEvent.sequence =
      List.range' (sequence + 1) (stored sessionId commandId clock sequence events).length := by
  rw [stored, placeAll_sequence, placeAll_length]

/-- Numbered lists that follow each other are numbered. -/
theorem numbered_append {xs ys : List StoredSessionEvent} {n : Nat}
    (hxs : xs.map StoredSessionEvent.sequence = List.range' (n + 1) xs.length)
    (hys : ys.map StoredSessionEvent.sequence = List.range' (n + xs.length + 1) ys.length) :
    (xs ++ ys).map StoredSessionEvent.sequence = List.range' (n + 1) (xs ++ ys).length := by
  rw [map_append, hxs, hys, length_append, ← range'_append_1]
  congr 2
  omega

/-! ## The tables -/

/-- What the tables of the log and the receipts hold at every moment. -/
structure Tables (s : State) : Prop where
  /-- A command's body was committed where its receipt says so. -/
  accepted : ∀ sessionId commandId, some commandId ∈ (s.commits sessionId).map Prod.fst ↔
    ∃ receipt, s.receipts sessionId commandId = some receipt ∧ receipt.status = .accepted
  once : ∀ sessionId, ((s.commits sessionId).filterMap Prod.fst).Nodup
  log : ∀ sessionId, s.events sessionId = (s.commits sessionId).flatMap Prod.snd
  numbered : ∀ sessionId, (s.events sessionId).map StoredSessionEvent.sequence =
    List.range' (s.base sessionId + 1) (s.events sessionId).length
  counted : ∀ sessionId, ∀ sequence ∈ s.eventSequence sessionId,
    sequence = s.base sessionId + (s.events sessionId).length
  fresh : ∀ sessionId, s.eventSequence sessionId = none → s.events sessionId = []

/-- A step that writes none of the tables. -/
theorem Tables.congr (h : Tables s) (hsequence : s'.eventSequence = s.eventSequence)
    (hevents : s'.events = s.events) (hreceipts : s'.receipts = s.receipts)
    (hbase : s'.base = s.base) (hcommits : s'.commits = s.commits) : Tables s' := by
  obtain ⟨h₁, h₂, h₃, h₄, h₅, h₆⟩ := h
  constructor <;> simpa only [hsequence, hevents, hreceipts, hbase, hcommits]

/-- What one transaction appends, numbered on from the log. -/
def NumberedFrom (sequence : Nat) (appended : List StoredSessionEvent) : Prop :=
  appended.map StoredSessionEvent.sequence = List.range' (sequence + 1) appended.length

variable {sessionId : Id} {sequence : Nat} {appended : List StoredSessionEvent}

/-- The log after a commit, whoever committed. -/
theorem Tables.write_log (h : Tables s) (hsession : s.eventSequence sessionId = some sequence)
    (by' : Option CommandId) (hnumbered : NumberedFrom sequence appended) :
    (∀ id, (s.write sessionId by' appended).events id =
      ((s.write sessionId by' appended).commits id).flatMap Prod.snd) ∧
    (∀ id, ((s.write sessionId by' appended).events id).map StoredSessionEvent.sequence =
      List.range' ((s.write sessionId by' appended).base id + 1)
        ((s.write sessionId by' appended).events id).length) ∧
    (∀ id, ∀ n ∈ (s.write sessionId by' appended).eventSequence id,
      n = (s.write sessionId by' appended).base id +
        ((s.write sessionId by' appended).events id).length) ∧
    ∀ id, (s.write sessionId by' appended).eventSequence id = none →
      (s.write sessionId by' appended).events id = [] := by
  have hcounted := h.counted sessionId sequence hsession
  refine ⟨fun id => ?_, fun id => ?_, fun id n hn => ?_, fun id hid => ?_⟩ <;>
    by_cases hsame : id = sessionId
  · subst hsame
    simp [State.write, h.log id]
  · simp [State.write, hsame, h.log id]
  · subst hsame
    simp only [State.write, update_self]
    exact numbered_append (h.numbered id) (hcounted ▸ hnumbered)
  · simpa [State.write, hsame] using h.numbered id
  · subst hsame
    simp only [State.write, update_self, hsession, map_some, mem_some] at hn
    simp only [State.write, update_self, length_append]
    omega
  · simp only [State.write, update_of_ne hsame] at hn ⊢
    exact h.counted id n hn
  · subst hsame
    simp [State.write, hsession] at hid
  · simp only [State.write, update_of_ne hsame] at hid ⊢
    exact h.fresh id hid

/-- Another writer commits. -/
theorem Tables.write (h : Tables s) (hsession : s.eventSequence sessionId = some sequence)
    (hnumbered : NumberedFrom sequence appended) : Tables (s.write sessionId none appended) := by
  obtain ⟨hlog, hnumbers, hcounted, hfresh⟩ := h.write_log hsession none hnumbered
  refine ⟨fun id commandId => ?_, fun id => ?_, hlog, hnumbers, hcounted, hfresh⟩
  · by_cases hsame : id = sessionId
    · subst hsame
      refine Iff.trans ?_ (h.accepted id commandId)
      simp [State.write]
    · simpa [State.write, hsame] using h.accepted id commandId
  · by_cases hsame : id = sessionId
    · subst hsame
      simpa [State.write] using h.once id
    · simpa [State.write, hsame] using h.once id

variable {input : Input} {receipt : CommandReceipt} {c' : Caller}

/-- A body commits with its receipt, where its key had none. -/
theorem Tables.commit (h : Tables s) (hsession : s.eventSequence input.sessionId = some sequence)
    (hnumbered : NumberedFrom sequence appended)
    (hkey : s.receipts input.sessionId input.commandId = none)
    (hstatus : receipt.status = .accepted) (hid : receipt.commandId = input.commandId) :
    Tables ((s.write input.sessionId (some input.commandId) appended).insertReceipt
      input.sessionId receipt) := by
  obtain ⟨hlog, hnumbers, hcounted, hfresh⟩ :=
    h.write_log hsession (some input.commandId) hnumbered
  have hnew : some input.commandId ∉ (s.commits input.sessionId).map Prod.fst := by
    rw [h.accepted, hkey]
    exact fun ⟨_, hnone, _⟩ => nomatch hnone
  refine ⟨fun id commandId => ?_, fun id => ?_, hlog, hnumbers, hcounted, hfresh⟩
  · by_cases hsame : id = input.sessionId
    · subst hsame
      by_cases hcommand : commandId = input.commandId
      · subst hcommand
        simp [State.write, State.insertReceipt, hid, hstatus]
      · have := h.accepted input.sessionId commandId
        simpa [State.write, State.insertReceipt, hid, hcommand] using this
    · simpa [State.write, State.insertReceipt, hsame] using h.accepted id commandId
  · by_cases hsame : id = input.sessionId
    · subst hsame
      have hfilter : (s.commits input.sessionId ++ [(some input.commandId, appended)]).filterMap
          Prod.fst = (s.commits input.sessionId).filterMap Prod.fst ++ [input.commandId] := by
        rw [filterMap_append]
        rfl
      simp only [State.write, State.insertReceipt, update_self]
      rw [hfilter, nodup_append]
      refine ⟨h.once _, nodup_singleton _, fun a ha b hb heq => hnew ?_⟩
      rw [mem_singleton] at hb
      rw [heq, hb, mem_filterMap] at ha
      obtain ⟨commit, hmem, hcommit⟩ := ha
      exact mem_map.mpr ⟨commit, hmem, hcommit⟩
    · simpa [State.write, State.insertReceipt, hsame] using h.once id

/-- A rejection is recorded, where its key had none. -/
theorem Tables.reject (h : Tables s) (hkey : s.receipts sessionId receipt.commandId = none)
    (hstatus : receipt.status = .rejected) : Tables (s.insertReceipt sessionId receipt) := by
  refine { h with accepted := fun id commandId => ?_ }
  have hold := h.accepted id commandId
  by_cases hsame : id = sessionId
  · subst hsame
    by_cases hcommand : commandId = receipt.commandId
    · subst hcommand
      rw [hkey] at hold
      simpa [State.insertReceipt, hstatus] using hold
    · simpa [State.insertReceipt, hcommand] using hold
  · simpa [State.insertReceipt, hsame] using hold

/-! ## The calls -/

/-- A transaction under its session's lock, with what it has appended. -/
def Holds (s : State) (c : Caller) (sessionId : Id) (appended : List StoredSessionEvent) : Prop :=
  s.lock sessionId = some c ∧ ∃ sequence, s.eventSequence sessionId = some sequence ∧
    NumberedFrom sequence appended

/-- What stands where a call stands. -/
def PointOk (s : State) (c : Caller) (input : Input) : Point → Prop
  | .checking => Holds s c input.sessionId []
  | .running appended | .inserting appended _ => Holds s c input.sessionId appended
  | .committing appended receipt =>
    Holds s c input.sessionId appended ∧ s.receipts input.sessionId input.commandId = none ∧
      receipt.status = .accepted ∧ receipt.commandId = input.commandId
  | .rereading _ _ => (s.receipts input.sessionId input.commandId).isSome
  | .returned receipt => s.receipts input.sessionId input.commandId = some receipt
  | _ => True

/-- What a step leaves to the calls other than `c`. -/
structure Frame (s s' : State) (c : Option Caller) : Prop where
  /-- A lock another call holds stays, and so does the session's sequence. -/
  lock : ∀ sessionId c' sequence, some c' ≠ c → s.lock sessionId = some c' →
    s.eventSequence sessionId = some sequence →
    s'.lock sessionId = some c' ∧ s'.eventSequence sessionId = some sequence
  receipts : ∀ sessionId commandId receipt, s.receipts sessionId commandId = some receipt →
    s'.receipts sessionId commandId = some receipt
  /-- The key of a receipt that is inserted and not committed stays free. -/
  free : ∀ c' input appended receipt, some c' ≠ c →
    s.calls c' = some (input, .committing appended receipt) → s.lock input.sessionId = some c' →
    s.receipts input.sessionId input.commandId = none →
    s'.receipts input.sessionId input.commandId = none

theorem Holds.frame {c : Option Caller} (hframe : Frame s s' c) (hne : some c' ≠ c)
    (h : Holds s c' sessionId appended) : Holds s' c' sessionId appended := by
  obtain ⟨hlock, sequence, hsequence, hnumbered⟩ := h
  obtain ⟨hlock', hsequence'⟩ := hframe.lock sessionId c' sequence hne hlock hsequence
  exact ⟨hlock', sequence, hsequence', hnumbered⟩

variable {point : Point}

/-- **Another call's step leaves a call where it stands.** -/
theorem PointOk.frame {c : Option Caller} (hframe : Frame s s' c) (hne : some c' ≠ c)
    (hcall : s.calls c' = some (input, point)) (h : PointOk s c' input point) :
    PointOk s' c' input point := by
  cases point with
  | checking | running appended | inserting appended result => exact Holds.frame hframe hne h
  | committing appended receipt =>
    obtain ⟨hholds, hkey, hreceipt⟩ := h
    exact ⟨hholds.frame hframe hne,
      hframe.free c' input appended receipt hne hcall hholds.1 hkey, hreceipt⟩
  | rereading refusal sequence =>
    obtain ⟨receipt, hreceipt⟩ := isSome_iff_exists.mp h
    exact isSome_iff_exists.mpr ⟨receipt, hframe.receipts _ _ _ hreceipt⟩
  | returned receipt => exact hframe.receipts _ _ _ h
  | looking | preparing | locking | rejecting | refusing | gone => trivial

structure Inv (s : State) : Prop where
  tables : Tables s
  calls : ∀ c input point, s.calls c = some (input, point) → PointOk s c input point

theorem inv_initial : Inv State.initial where
  tables :=
    { accepted := fun _ _ => ⟨fun h => (nomatch h), fun ⟨_, h, _⟩ => (nomatch h)⟩
      once := fun _ => nodup_nil
      log := fun _ => rfl
      numbered := fun _ => rfl
      counted := fun _ _ h => (nomatch h)
      fresh := fun _ _ => rfl }
  calls := fun _ _ _ h => (nomatch h)

theorem calls_at' (s : State) (c : Caller) (input : Input) (point : Point) (c' : Caller) :
    (s.at' c input point).calls c' = if c' = c then some (input, point) else s.calls c' :=
  update_apply ..

variable {c : Caller}

section

variable (h : Inv s)
include h

/-- A step of one call: the others stand where they stood. -/
theorem Inv.move (s' : State) (htables : Tables s') (hframe : Frame s s' (some c))
    (hcalls : s'.calls = s.calls) (hpoint : PointOk s' c input point) :
    Inv (s'.at' c input point) := by
  refine ⟨htables.congr rfl rfl rfl rfl rfl, fun c' input' point' hcall => ?_⟩
  have hok : PointOk s' c' input' point' := by
    rw [calls_at'] at hcall
    by_cases hsame : c' = c
    · rw [if_pos hsame] at hcall
      obtain ⟨rfl, rfl⟩ := Prod.mk.inj (some.inj hcall)
      exact hsame ▸ hpoint
    · rw [if_neg hsame, hcalls] at hcall
      exact (h.calls c' input' point' hcall).frame hframe (fun heq => hsame (some.inj heq))
        hcall
  cases point' <;> exact hok

/-- A step of one call that touches no table and no lock. -/
theorem Inv.stay (hpoint : PointOk s c input point) : Inv (s.at' c input point) :=
  h.move s h.tables ⟨fun _ _ _ _ hlock hsession => ⟨hlock, hsession⟩, fun _ _ _ hreceipt =>
    hreceipt,
    fun _ _ _ _ _ _ _ hkey => hkey⟩ rfl hpoint

/-- A transaction ends without a commit. -/
theorem Inv.rollback (hlock : s.lock input.sessionId = some c)
    (hpoint : PointOk (s.release input.sessionId) c input point) :
    Inv ((s.release input.sessionId).at' c input point) := by
  refine h.move (s.release input.sessionId) (h.tables.congr rfl rfl rfl rfl rfl)
    ⟨fun sessionId c' _ hne hheld hsession => ?_,
    fun _ _ _ hreceipt => hreceipt, fun _ _ _ _ _ _ _ hkey => hkey⟩ rfl hpoint
  by_cases hsame : sessionId = input.sessionId
  · subst hsame
    exact absurd (hheld.symm.trans hlock) hne
  · exact ⟨(update_of_ne hsame ..).trans hheld, hsession⟩

omit h in
theorem receipts_insertReceipt (s : State) (sessionId : Id) (receipt : CommandReceipt)
    (sessionId' : Id) (commandId : CommandId) :
    (s.insertReceipt sessionId receipt).receipts sessionId' commandId =
      if sessionId' = sessionId ∧ commandId = receipt.commandId then some receipt
      else s.receipts sessionId' commandId := by
  by_cases hsession : sessionId' = sessionId
  · subst hsession
    by_cases hcommand : commandId = receipt.commandId <;> simp [State.insertReceipt, hcommand]
  · simp [State.insertReceipt, hsession]

omit h in
/-- A receipt inserted under a free key leaves the others. -/
theorem receipts_kept (hkey : s.receipts sessionId receipt.commandId = none) {sessionId' : Id}
    {commandId : CommandId} {old : CommandReceipt}
    (hold : s.receipts sessionId' commandId = some old) :
    (s.insertReceipt sessionId receipt).receipts sessionId' commandId = some old := by
  rw [receipts_insertReceipt, if_neg]
  · exact hold
  · rintro ⟨rfl, rfl⟩
    cases hkey.symm.trans hold

/-- The lock is taken. -/
theorem Inv.locked (hsession : s.eventSequence input.sessionId = some sequence)
    (hlock : s.lock input.sessionId = none) :
    Inv ({ s with lock := update s.lock input.sessionId (some c) }.at' c input
      .checking) := by
  refine h.move { s with lock := update s.lock input.sessionId (some c) }
    (h.tables.congr rfl rfl rfl rfl rfl) ⟨fun sessionId c' _ _ hheld hsession' => ?_,
      fun _ _ _ hreceipt => hreceipt, fun _ _ _ _ _ _ _ hkey => hkey⟩ rfl ?_
  · have hne : sessionId ≠ input.sessionId := fun heq => by
      rw [heq, hlock] at hheld
      cases hheld
    exact ⟨(update_of_ne hne ..).trans hheld, hsession'⟩
  · exact ⟨update_self .., sequence, hsession, rfl⟩

/-- The accepted receipt commits with the body's events. -/
theorem Inv.commit (hpoint : PointOk s c input (.committing appended receipt)) :
    Inv ((((s.write input.sessionId (some input.commandId) appended).insertReceipt
      input.sessionId receipt).release input.sessionId).at' c input (.returned receipt)) := by
  obtain ⟨⟨hlock, sequence, hsession, hnumbered⟩, hkey, hstatus, hid⟩ := hpoint
  have htables := h.tables.commit hsession hnumbered hkey hstatus hid
  refine h.move (((s.write input.sessionId (some input.commandId) appended).insertReceipt
    input.sessionId receipt).release input.sessionId) (htables.congr rfl rfl rfl rfl rfl)
    ⟨fun sessionId c' _ hne hheld hsession' => ?_, fun sessionId commandId old hold => ?_,
      fun c' input' _ _ hne _ hheld hfree => ?_⟩ rfl ?_
  · have hother : sessionId ≠ input.sessionId := fun heq => by
      rw [heq, hlock] at hheld
      exact hne hheld.symm
    exact ⟨(update_of_ne hother ..).trans hheld, (update_of_ne hother ..).trans hsession'⟩
  · have hkey' : (s.write input.sessionId (some input.commandId) appended).receipts
        input.sessionId receipt.commandId = none := hid ▸ hkey
    exact receipts_kept hkey' hold
  · have hother : input'.sessionId ≠ input.sessionId := fun heq => by
      rw [heq, hlock] at hheld
      exact hne hheld.symm
    exact (receipts_insertReceipt ..).trans ((if_neg fun heq => hother heq.1).trans hfree)
  · exact (receipts_insertReceipt ..).trans (if_pos ⟨rfl, hid.symm⟩)

/-- The rejected receipt is inserted: its key was free, and nobody had inserted it. -/
theorem Inv.refuse {refusal : Refusal} (hwait : s.inserted input = false)
    (hkey : s.receipts input.sessionId input.commandId = none) :
    Inv ((s.insertReceipt input.sessionId
      ⟨input.commandId, .rejected, sequence, none, some refusal⟩).at' c input
        (.rereading refusal sequence)) := by
  refine h.move (s.insertReceipt input.sessionId
    ⟨input.commandId, .rejected, sequence, none, some refusal⟩) (h.tables.reject hkey rfl)
    ⟨fun _ _ _ _ hheld hsession => ⟨hheld, hsession⟩, fun _ _ _ => receipts_kept hkey,
      fun c' input' appended receipt _ hcall hheld hfree => ?_⟩ rfl ?_
  · rw [receipts_insertReceipt, if_neg]
    · exact hfree
    · rintro ⟨hsession, hcommand⟩
      have heq : input' = input := by
        exact congrArg₂ Input.mk hsession hcommand
      subst heq
      rw [State.inserted, hheld] at hwait
      simp [hcall] at hwait
  · exact isSome_of_eq_some ((receipts_insertReceipt ..).trans (if_pos ⟨rfl, rfl⟩))

/-- A session is created. -/
theorem Inv.create (hnone : s.eventSequence sessionId = none) (sequence : Nat) : Inv { s with
      eventSequence := update s.eventSequence sessionId (some sequence)
      base := update s.base sessionId sequence } := by
  have hempty := h.tables.fresh sessionId hnone
  refine ⟨⟨h.tables.accepted, h.tables.once, h.tables.log, fun id => ?_, fun id n hn => ?_,
    fun id hid => ?_⟩, fun c input point hcall => ?_⟩
  · by_cases hsame : id = sessionId
    · subst hsame
      simp [hempty]
    · simpa [hsame] using h.tables.numbered id
  · by_cases hsame : id = sessionId
    · subst hsame
      simpa [hempty, eq_comm] using hn
    · simp only [update_of_ne hsame] at hn ⊢
      exact h.tables.counted id n hn
  · by_cases hsame : id = sessionId
    · exact hsame ▸ hempty
    · simp only [update_of_ne hsame] at hid
      exact h.tables.fresh id hid
  · have hframe : Frame s { s with
        eventSequence := update s.eventSequence sessionId (some sequence)
        base := update s.base sessionId sequence } none := by
      refine ⟨fun id c' n _ hheld hsession => ⟨hheld, ?_⟩, fun _ _ _ hreceipt => hreceipt,
        fun _ _ _ _ _ _ _ hkey => hkey⟩
      have hne : id ≠ sessionId := fun heq => by
        rw [heq, hnone] at hsession
        cases hsession
      exact (update_of_ne hne ..).trans hsession
    exact (h.calls c input point hcall).frame hframe nofun hcall

/-- Another writer appends, while nobody holds the session's lock. -/
theorem Inv.write (hsession : s.eventSequence sessionId = some sequence)
    (hlock : s.lock sessionId = none)
    (hnumbered : NumberedFrom sequence appended) : Inv (s.write sessionId none appended) := by
  refine ⟨h.tables.write hsession hnumbered, fun c input point hcall => ?_⟩
  have hframe : Frame s (s.write sessionId none appended) none := by
    refine ⟨fun id c' _ _ hheld hsession' => ⟨hheld, ?_⟩, fun _ _ _ hreceipt => hreceipt,
      fun _ _ _ _ _ _ _ hkey => hkey⟩
    have hne : id ≠ sessionId := fun heq => by
      rw [heq, hlock] at hheld
      cases hheld
    exact (update_of_ne hne ..).trans hsession'
  exact (h.calls c input point hcall).frame hframe nofun hcall

/-- **The next statement of any call keeps the invariant.** -/
theorem Inv.advance {action : Action} (hcall : s.calls c = some (input, point))
    (hstep : advance s c input point action = some s') : Inv s' := by
  have hpoint := h.calls c input point hcall
  unfold Commands.advance at hstep
  split at hstep
  · -- lookup
    split at hstep <;> cases hstep
    · rename_i hreceipt
      exact h.stay hreceipt
    · exact h.stay trivial
  · -- prepared
    split at hstep <;> cases hstep <;> exact h.stay trivial
  · -- lock
    split at hstep <;> cases hstep
    · exact h.stay trivial
    · rename_i hsession hlock
      exact h.locked hsession hlock
  · -- check
    split at hstep <;> cases hstep
    · rename_i hreceipt
      exact h.rollback hpoint.1 hreceipt
    · exact h.stay hpoint
  · -- append
    rename_i appended commandId clock events
    obtain ⟨sequence, hsession, rfl⟩ := map_eq_some_iff.mp hstep
    obtain ⟨hlock, _, hsession', hnumbered⟩ := hpoint
    cases hsession.symm.trans hsession'
    exact h.stay ⟨hlock, sequence, hsession,
      numbered_append hnumbered (stored_sequence _ commandId clock _ events)⟩
  · -- ran
    split at hstep <;> cases hstep
    · exact h.stay hpoint
    · exact h.rollback hpoint.1 trivial
    · exact h.rollback hpoint.1 trivial
  · -- insert
    split at hstep
    · cases hstep
      exact h.rollback hpoint.1 trivial
    · rename_i hkey
      obtain ⟨sequence, hsession, rfl⟩ := map_eq_some_iff.mp hstep
      exact h.stay ⟨hpoint, hkey, rfl, rfl⟩
  · -- commit
    cases hstep
    exact h.commit hpoint
  · -- latestSequence
    cases hstep
    exact h.stay trivial
  · -- refuse
    split at hstep
    · cases hstep
      exact h.stay trivial
    · split at hstep
      · cases hstep
      · rename_i hwait
        split at hstep <;> cases hstep
        · rename_i hreceipt
          exact h.stay (isSome_iff_exists.mpr ⟨_, hreceipt⟩)
        · rename_i hkey
          exact h.refuse (Bool.not_eq_true _ ▸ hwait) hkey
  · -- reread
    cases hstep
    obtain ⟨receipt, hreceipt⟩ := isSome_iff_exists.mp hpoint
    rw [hreceipt]
    exact h.stay hreceipt
  -- A crash: the transaction that holds the lock is rolled back.
  · cases hstep
    exact h.rollback hpoint.1 trivial
  · cases hstep
    exact h.rollback hpoint.1 trivial
  · cases hstep
    exact h.rollback hpoint.1 trivial
  · cases hstep
    exact h.rollback hpoint.1.1 trivial
  all_goals cases hstep
  all_goals exact h.stay trivial

/-- **Every step keeps the invariant.** -/
theorem inv_step {e : Event} (hstep : step s e = some s') : Inv s' := by
  cases e with
  | create sessionId sequence =>
    rw [step] at hstep
    split at hstep
    · cases hstep
    · rename_i hnone
      cases hstep
      exact h.create hnone sequence
  | write sessionId commandId clock events =>
    rw [step] at hstep
    split at hstep
    · rename_i sequence hsession hlock
      cases hstep
      exact h.write hsession hlock (stored_sequence _ commandId clock _ events)
    · cases hstep
  | call c input =>
    rw [step, ite_none_right_eq_some, some.injEq] at hstep
    obtain ⟨_, rfl⟩ := hstep
    exact h.stay trivial
  | advance c action =>
    rw [step] at hstep
    split at hstep
    · cases hstep
    · rename_i input point hcall
      exact h.advance hcall hstep

end

/-! ## Runs -/

/-- What the claim of commands that run at most once comes to, in one state of a run. -/
structure Sound (s : State) : Prop where
  /-- A command's body is committed at most once. -/
  once : ∀ sessionId, ((s.commits sessionId).filterMap Prod.fst).Nodup
  /-- Everyone answered for a command has the one receipt. -/
  answers : ∀ c input receipt, s.calls c = some (input, .returned receipt) →
    s.receipts input.sessionId input.commandId = some receipt
  /-- A receipt says whether the body was committed. -/
  receipts : ∀ sessionId commandId receipt, s.receipts sessionId commandId = some receipt →
    (receipt.status = .accepted ↔ commandId ∈ (s.commits sessionId).filterMap Prod.fst)
  /-- The log holds the events of what was committed, and no other. -/
  log : ∀ sessionId, s.events sessionId = (s.commits sessionId).flatMap Prod.snd
  /-- Its numbers have no gap, and none was taken without an event. -/
  numbered : ∀ sessionId, (s.events sessionId).map StoredSessionEvent.sequence =
    List.range' (s.base sessionId + 1) (s.events sessionId).length
  counted : ∀ sessionId, ∀ sequence ∈ s.eventSequence sessionId,
    sequence = s.base sessionId + (s.events sessionId).length

theorem Inv.sound (h : Inv s) : Sound s where
  once := h.tables.once
  answers := fun c input receipt => h.calls c input _
  receipts := fun sessionId commandId receipt hreceipt => by
    have haccepted := h.tables.accepted sessionId commandId
    rw [hreceipt] at haccepted
    constructor
    · intro hstatus
      obtain ⟨commit, hmem, hcommit⟩ := mem_map.mp (haccepted.mpr ⟨receipt, rfl, hstatus⟩)
      exact mem_filterMap.mpr ⟨commit, hmem, hcommit⟩
    · intro hmem
      obtain ⟨commit, hmem, hcommit⟩ := mem_filterMap.mp hmem
      obtain ⟨_, heq, hstatus⟩ := haccepted.mp (mem_map.mpr ⟨commit, hmem, hcommit⟩)
      exact some.inj heq ▸ hstatus
  log := h.tables.log
  numbered := h.tables.numbered
  counted := h.tables.counted

/-- Two callers of one command: the first runs its body, the second's work before it is
refused meanwhile, and its rejection comes to an id that is answered already. -/
def racing : List Event :=
  [.create 1 0, .call 1 ⟨1, "a"⟩, .call 2 ⟨1, "a"⟩, .advance 1 .lookup, .advance 2 .lookup,
    .advance 1 (.prepared (.returned ())), .advance 2 (.prepared (.rejected ⟨"busy", "Busy"⟩)),
    .advance 1 .lock, .advance 1 .check,
    .advance 1 (.append (some "a") 0 [.itemTextAppended 1 .text "b" (toISOString 0)]),
    .advance 1 (.ran (.returned none)), .advance 1 .insert, .advance 2 .latestSequence,
    .advance 1 .commit, .advance 2 .refuse, .advance 2 .reread]

end Catamorphic.Sessions.Commands
