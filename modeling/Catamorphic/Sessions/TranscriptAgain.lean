import Catamorphic.Sessions.TranscriptRuns
import Mathlib.Tactic.Tauto

/-!
# Reading a transcript again

What was read as new stands in the session under its key. When it is read again, a turn is told
again where its timestamps are not spelled as they were stored, and an item where its parent was
not known before and is known now.
-/

namespace Catamorphic.Sessions.Import

open Function List Option
open Protocol (Id Stamp toISOString)

/-! ## What settles -/

/-- The keys of a turn's items and of its input, each with the key of its parent. -/
def ImportedTurn.entries (turn : ImportedTurn) : List (String × Option String) :=
  turn.input.toList.map (fun input => (input.key, none)) ++
    turn.items.map fun item => (item.key, item.parentKey)

def ImportedTranscript.entries (transcript : ImportedTranscript) :
    List (String × Option String) :=
  transcript.turns.flatMap ImportedTurn.entries

/-- An earlier reading of a transcript: its first turns, the last of them perhaps with its first
items only. -/
def ImportedTranscript.Earlier (part whole : ImportedTranscript) : Prop :=
  ∃ turns rest, whole.turns = turns ++ rest ∧
    (part.turns = turns ∨ ∃ turn items later, rest = turn :: later ∧ items <+: turn.items ∧
      part.turns = turns ++ [{ turn with items := items }])

/-- A key is the tool's own id of one turn, or of one item. -/
structure Distinct (transcript : ImportedTranscript) : Prop where
  turns : (transcript.turns.map ImportedTurn.key).Nodup
  entries : (transcript.entries.map Prod.fst).Nodup

/-- No item stands before its parent. -/
def InOrder (transcript : ImportedTranscript) : Prop :=
  ∀ before entry after, transcript.entries = before ++ entry :: after →
    ∀ parent ∈ truthy entry.2, parent ∉ (entry :: after).map Prod.fst

/-- The turns' timestamps are spelled as they will be read. -/
def Stamped (transcript : ImportedTranscript) : Prop :=
  ∀ turn ∈ transcript.turns, turn.startedAt.Iso ∧ ∀ at' ∈ turn.completedAt, at'.Iso

/-- Nothing in the session has or names the id. -/
structure Unused (s : Session) (id : Id) : Prop where
  turns : ∀ turn ∈ s.turns, turn.id ≠ id
  attempts : ∀ attempt ∈ s.attempts, attempt.id ≠ id
  items : ∀ item ∈ s.items, item.id ≠ id ∧ item.turnId ≠ some id

/-- The session has nothing of the transcript yet, and the ids to come are new. -/
structure Unread (uuid : Nat → Id) (w : World) (transcript : ImportedTranscript) : Prop where
  injective : Function.Injective uuid
  unused : ∀ n, w.drawn ≤ n → Unused w.session (uuid n)
  attempts : ∀ attempt ∈ w.session.attempts, ∀ ref ∈ attempt.nativeTurnRef,
    ∀ turn ∈ transcript.turns, turn.key ≠ ref.id

/-- An import says all there is to say: a second one says nothing, and an earlier reading's only
comes before, with what it recorded. -/
structure Settles (uuid : Nat → Id) (session : Owned) (w : World)
    (transcript : ImportedTranscript) : Prop where
  again : ((w.imported uuid session transcript).read uuid session transcript).events = []
  grown : ∀ part : ImportedTranscript, part.Earlier transcript →
    (w.imported uuid session part).imported uuid session transcript =
      w.imported uuid session transcript
  kept : ∀ part : ImportedTranscript, part.Earlier transcript →
    (w.imported uuid session part).session.turns <+:
        (w.imported uuid session transcript).session.turns ∧
      (w.imported uuid session part).session.attempts <+:
        (w.imported uuid session transcript).session.attempts ∧
      (w.imported uuid session part).session.items <+:
        (w.imported uuid session transcript).session.items

section

variable (uuid : Nat → Id) (session : Owned) {ref : NativeRef}

/-! ## What the next import reads -/

section

variable {Row : Type} {keyOf : Row → String} {rows : List Row} {map : String → Option Row}

theorem foldl_update_of_not_mem {key : String} (h : key ∉ rows.map keyOf) :
    rows.foldl (fun map row => update map (keyOf row) (some row)) map key = map key := by
  induction rows generalizing map with
  | nil => rfl
  | cons row rows ih =>
    rw [map_cons, mem_cons, not_or] at h
    rw [foldl_cons, ih h.2, update_of_ne h.1]

theorem foldl_update_of_mem (hnodup : (rows.map keyOf).Nodup) {row : Row} (h : row ∈ rows) :
    rows.foldl (fun map row => update map (keyOf row) (some row)) map (keyOf row) = some row := by
  induction rows generalizing map with
  | nil => cases h
  | cons other rows ih =>
    rw [map_cons, nodup_cons] at hnodup
    rw [foldl_cons]
    rcases mem_cons.mp h with rfl | h
    · rw [foldl_update_of_not_mem hnodup.1, update_self]
    · exact ih hnodup.2 h

end

/-- Rows by their keys: of those with one key, the last. -/
def byKey {Row : Type} (keyOf : Row → String) (rows : List Row) : String → Option Row :=
  rows.foldl (fun map row => update map (keyOf row) (some row)) fun _ => none

def Known.key (known : Known) : String := (known.attempt.nativeTurnRef.map NativeRef.id).getD ""

def Item.key (item : Item) : String := (item.nativeRef.map NativeRef.id).getD ""

theorem find?_of_nodup {Row : Type} {idOf : Row → Id} {rows : List Row}
    (hnodup : (rows.map idOf).Nodup) {row : Row} (h : row ∈ rows) :
    (rows.find? fun other => idOf other = idOf row) = some row := by
  induction rows with
  | nil => cases h
  | cons other rows ih =>
    rw [map_cons, nodup_cons] at hnodup
    rcases mem_cons.mp h with rfl | h
    · exact List.find?_cons_of_pos (by simp)
    · rw [List.find?_cons_of_neg, ih hnodup.2 h]
      simp only [decide_eq_true_eq]
      exact fun heq => hnodup.1 (heq ▸ mem_map_of_mem h)

theorem turnsByKey_eq {knowns : List Known} {items : List Item}
    (hids : (knowns.map fun known => known.turn.id).Nodup)
    (hattempts : ∀ known ∈ knowns, known.attempt.turnId = known.turn.id)
    (hrefs : ∀ known ∈ knowns, known.attempt.nativeTurnRef ≠ none) :
    turnsByKey ⟨knowns.map Known.turn, knowns.map Known.attempt, items⟩ =
      byKey Known.key knowns := by
  unfold turnsByKey byKey
  rw [foldl_map]
  refine foldl_ext _ _ _ fun map known hknown => ?_
  have hturns : ((knowns.map Known.turn).map Turn.id).Nodup := by rwa [List.map_map]
  have hfind := find?_of_nodup hturns (mem_map_of_mem hknown)
  rw [← hattempts known hknown] at hfind
  rw [hfind]
  obtain ⟨ref, href⟩ := ne_none_iff_exists'.mp (hrefs known hknown)
  simp only [href, Known.key, map_some, getD_some]

theorem itemsByKey_eq {items : List Item} {turns : List Turn} {attempts : List Attempt}
    (hrefs : ∀ item ∈ items, item.nativeRef ≠ none) :
    itemsByKey ⟨turns, attempts, items⟩ = byKey Item.key items := by
  refine foldl_ext _ _ _ fun map item hitem => ?_
  obtain ⟨ref, href⟩ := ne_none_iff_exists'.mp (hrefs item hitem)
  simp only [href, Item.key, map_some, getD_some]

theorem filter_of_neither {Row : Type} {p : Row → Bool} {before after : List Row}
    (hbefore : ∀ row ∈ before, p row = false) (hafter : ∀ row ∈ after, p row = true) :
    (before ++ after).filter p = after := by
  rw [filter_append, filter_eq_nil_iff.mpr (by simpa using hbefore),
    filter_eq_self.mpr hafter, nil_append]

/-- **What is read of a session is what the transcript's turns recorded.** -/
theorem existing_eq {transcript : ImportedTranscript} {s : Session} {knowns : List Known}
    {items : List Item} {sequence : Nat}
    (hunread : ∀ attempt ∈ s.attempts, ∀ ref ∈ attempt.nativeTurnRef,
      ∀ turn ∈ transcript.turns, turn.key ≠ ref.id)
    (hunused : ∀ known ∈ knowns, Unused s known.turn.id)
    (hattempts : ∀ known ∈ knowns, known.attempt.turnId = known.turn.id)
    (hrefs : ∀ known ∈ knowns, ∃ turn ∈ transcript.turns,
      known.attempt.nativeTurnRef = some ⟨turn.key, true⟩)
    (hitems : ∀ item ∈ items, ∃ known ∈ knowns, item.turnId = some known.turn.id) :
    (Session.mk sequence (s.turns ++ knowns.map Known.turn)
        (s.attempts ++ knowns.map Known.attempt) (s.items ++ items)).existing transcript =
      ⟨knowns.map Known.turn, knowns.map Known.attempt, items⟩ := by
  have hfound : (s.attempts ++ knowns.map Known.attempt).filter (fun attempt =>
      attempt.nativeTurnRef.any fun ref => transcript.turns.any fun turn => turn.key = ref.id) =
        knowns.map Known.attempt := by
    apply filter_of_neither
    · intro attempt hattempt
      rcases href : attempt.nativeTurnRef with _ | ref
      · rfl
      · simpa using hunread attempt hattempt ref href
    · intro attempt hattempt
      obtain ⟨known, hknown, rfl⟩ := mem_map.mp hattempt
      obtain ⟨turn, hturn, href⟩ := hrefs known hknown
      simpa [href] using ⟨turn, hturn, rfl⟩
  simp only [Session.existing, hfound, Existing.mk.injEq, true_and]
  constructor
  · apply filter_of_neither
    · intro turn hturn
      simp only [List.any_map, List.any_eq_false, Function.comp_apply, decide_eq_true_eq]
      intro known hknown heq
      exact (hunused known hknown).turns turn hturn (by rw [← heq, hattempts known hknown])
    · intro turn hturn
      obtain ⟨known, hknown, rfl⟩ := mem_map.mp hturn
      simpa using ⟨known, hknown, hattempts known hknown⟩
  · apply filter_of_neither
    · intro item hitem
      rcases hturn : item.turnId with _ | turnId
      · rfl
      · simp only [any_some, List.any_map, List.any_eq_false, Function.comp_apply,
          decide_eq_true_eq]
        intro known hknown heq
        refine ((hunused known hknown).items item hitem).2 ?_
        rw [hturn, ← heq, hattempts known hknown]
    · intro item hitem
      obtain ⟨known, hknown, hturn⟩ := hitems item hitem
      simpa [hturn] using ⟨known, hknown, hattempts known hknown⟩

theorem runTurns_keys (c : Cursor) (xs : List Step) :
    (runTurns uuid session c xs).map Known.key = xs.flatMap Step.turnKeys := by
  have h := congrArg (List.map fun ref : Option NativeRef => (ref.map NativeRef.id).getD "")
    (runTurns_refs uuid session c xs)
  rw [List.map_map, List.map_map] at h
  exact h.trans (map_id _)

theorem runItems_keys (c : Cursor) (sequence : Nat) (xs : List Step) :
    (runItems uuid session c sequence xs).map Item.key =
      (xs.flatMap Step.entries).map Prod.fst := by
  have h := congrArg (List.map fun ref : Option NativeRef => (ref.map NativeRef.id).getD "")
    (runItems_refs uuid session c sequence xs)
  rw [List.map_map, List.map_map] at h
  exact h

theorem runTurns_ordinal (c : Cursor) (xs : List Step) :
    ((runTurns uuid session c xs).map fun known => known.turn.ordinal).foldl max c.ordinal =
      (xs.foldl (newStep uuid session) c).ordinal := by
  induction xs generalizing c with
  | nil => rfl
  | cons x xs ih =>
    rw [foldl_cons, ← ih]
    cases x with
    | item imported => rfl
    | turn imported =>
      have hmax : max c.ordinal (c.ordinal + 1) = c.ordinal + 1 :=
        Nat.max_eq_right (Nat.le_succ _)
      simp only [runTurns, stepTurns, map_cons, cons_append, foldl_cons]
      congr 1

/-! ## Reading it again -/

theorem stored_eq_iff {stamp : Stamp} : stored stamp = stamp ↔ stamp.Iso := by
  obtain ⟨date, spelling⟩ := stamp
  simp [stored, toISOString, Stamp.Iso, eq_comm]

theorem truthy_of_ne {text : String} (h : text ≠ "") : truthy (some text) = some text := by
  simp [truthy, h]

theorem keyed_apply {map : String → Option Item} {item : Item} {key : String}
    (href : item.nativeRef = some ref) :
    keyed map item key = if ref.id ≠ "" ∧ key = ref.id then some item else map key := by
  by_cases hkey : key = ref.id
  · subst hkey
    by_cases hempty : ref.id = ""
    · rw [if_neg fun h => h.1 hempty]
      simp only [keyed, href, map_some, hempty]
      rfl
    · simp [keyed, href, truthy_of_ne hempty, hempty]
  · rw [keyed_of_ne href fun h => hkey h.symm, if_neg fun h => hkey h.2]

theorem Turn.changed_iff {before after : Turn} :
    before.changed after = false ↔ { before with updatedAt := after.updatedAt } = after := by
  rw [Turn.changed, decide_eq_false_iff_not, not_not]

theorem Attempt.changed_iff {before after : Attempt} :
    before.changed after = false ↔ before = after := by
  rw [Attempt.changed, decide_eq_false_iff_not, not_not]

theorem Item.changed_iff {before after : Item} :
    before.changed after = false ↔ { before with updatedAt := after.updatedAt } = after := by
  rw [Item.changed, decide_eq_false_iff_not, not_not]

theorem completed_iff {completedAt : Option Stamp} :
    completedAt.map stored = completedAt ↔ ∀ at' ∈ completedAt, at'.Iso := by
  cases completedAt <;> simp [stored_eq_iff]

theorem turn_quiet_iff (c : Cursor) (imported : ImportedTurn) :
    (newTurn uuid session c imported).row.changed (newTurn uuid session c imported) = false ↔
      imported.startedAt.Iso ∧ ∀ at' ∈ imported.completedAt, at'.Iso := by
  rw [Turn.changed_iff, ← completed_iff]
  simp [Turn.row, newTurn, importedTurn, stored_eq_iff]

theorem attempt_quiet_iff (c : Cursor) (imported : ImportedTurn) :
    (newAttempt uuid session c imported).row.changed (newAttempt uuid session c imported) = false ↔
      imported.startedAt.Iso ∧ ∀ at' ∈ imported.completedAt, at'.Iso := by
  rw [Attempt.changed_iff, ← completed_iff]
  simp [Attempt.row, newAttempt, importedAttempt, stored_eq_iff]

theorem push_known (r : Reading) (item existing : Item) : r.push item (some existing) = { r with
      itemsByKey := keyed r.itemsByKey item
      events := r.events ++ if existing.changed item then [.itemChanged item] else [] } := by
  unfold Reading.push keyed
  cases truthy (item.nativeRef.map NativeRef.id) <;> cases hchanged : existing.changed item <;>
    simp [Reading.emit, hchanged]

/-- What was read as new stands before the reading that comes again: every record of the run under
its key, and of the other keys the same. -/
structure Replays (turnsByKey : String → Option Known) (c d : Cursor) (sequence : Nat)
    (xs : List Step) : Prop where
  turnId : d.turnId = c.turnId
  attemptId : d.attemptId = c.attemptId
  turns : ∀ known ∈ runTurns uuid session c xs, turnsByKey known.key = some known
  items : ∀ item ∈ runItems uuid session c sequence xs, d.itemsByKey item.key = some item
  others : ∀ key, key ≠ "" → key ∉ (xs.flatMap Step.entries).map Prod.fst →
    (d.itemsByKey key).map Item.id = (c.itemsByKey key).map Item.id

/-- Nothing is said of a step that comes again. -/
def Quiet (xs : List Step) : Step → Prop
  | .turn imported => imported.startedAt.Iso ∧ ∀ at' ∈ imported.completedAt, at'.Iso
  | .item imported => ∀ parent ∈ truthy imported.parentKey,
      parent ∉ (imported.key :: (xs.flatMap Step.entries).map Prod.fst)

section

variable {turnsByKey : String → Option Known} {c d : Cursor} {sequence : Nat} {xs : List Step}
  {imported : ImportedItem}

theorem parent_quiet_iff (h : Replays uuid session turnsByKey c d sequence (.item imported :: xs))
    (hnew : ∀ entry ∈ (Step.item imported :: xs).flatMap Step.entries,
      c.itemsByKey entry.1 = none) :
    parentOf c.itemsByKey imported = parentOf d.itemsByKey imported ↔
      Quiet xs (.item imported) := by
  have hkeys : ((Step.item imported :: xs).flatMap Step.entries).map Prod.fst =
      imported.key :: (xs.flatMap Step.entries).map Prod.fst := rfl
  rcases hparent : truthy imported.parentKey with _ | parent
  · simp [parentOf, hparent, Quiet]
  · have hne : parent ≠ "" := by
      simp only [truthy, filter_eq_some_iff, decide_eq_true_eq] at hparent
      exact hparent.2
    simp only [parentOf, hparent, bind_some, Quiet, mem_some_iff, forall_eq']
    constructor
    · intro heq hmem
      rw [← hkeys] at hmem
      obtain ⟨entry, hentry, rfl⟩ := mem_map.mp hmem
      rw [← runItems_keys uuid session c sequence] at hmem
      obtain ⟨item, hitem, hkey⟩ := mem_map.mp hmem
      rw [hnew entry hentry, ← hkey, h.items item hitem] at heq
      cases heq
    · intro hnot
      exact (h.others parent hne hnot).symm

/-- An item that comes again, as it is told: its parent may be known by now. -/
def againItem (c d : Cursor) (sequence : Nat) (imported : ImportedItem) : Item :=
  { newItem uuid session c imported with
    position := sequence + 1
    parentItemId := parentOf d.itemsByKey imported }

theorem step_item_again (h : Replays uuid session turnsByKey c d sequence (.item imported :: xs)) :
    step uuid session turnsByKey d (.item imported) = { d with
        itemsByKey := keyed d.itemsByKey (againItem uuid session c d sequence imported)
        events := d.events ++ if Item.changed
            { newItem uuid session c imported with position := sequence + 1 }
            (againItem uuid session c d sequence imported) then
          [.itemChanged (againItem uuid session c d sequence imported)] else [] } := by
  have hitem : d.itemsByKey imported.key =
      some { newItem uuid session c imported with position := sequence + 1 } :=
    h.items _ (.head _)
  have hagain : importedItem session (newItem uuid session c imported).id d.turnId d.attemptId
      imported (some { newItem uuid session c imported with position := sequence + 1 })
      (parentOf d.itemsByKey imported) = againItem uuid session c d sequence imported := by
    rw [h.turnId, h.attemptId]
    simp only [importedItem, againItem, newItem]
    split <;> rfl
  simp only [step, importItem, hitem, map_some, Reading.draw, push_known]
  rw [← parentOf, hagain]

/-- An input that comes again: it is as it was stored. -/
def againInput (c : Cursor) (sequence : Nat) (input : ImportedInput) : Item :=
  { userMessage session (uuid (c.drawn + 2)) (uuid c.drawn) input none with
    position := sequence + 1 }

theorem step_turn_again {imported : ImportedTurn}
    (h : Replays uuid session turnsByKey c d sequence (.turn imported :: xs)) :
    step uuid session turnsByKey d (.turn imported) =
      { itemsByKey := (stepItems uuid session c sequence (.turn imported)).foldl keyed
          d.itemsByKey
        ordinal := d.ordinal
        drawn := d.drawn
        events := d.events ++
          (if (newTurn uuid session c imported).row.changed (newTurn uuid session c imported) then
            [.turnChanged (newTurn uuid session c imported)] else []) ++
          if (newAttempt uuid session c imported).row.changed
              (newAttempt uuid session c imported) then
            [.attemptChanged (newAttempt uuid session c imported)] else []
        turnId := uuid c.drawn
        attemptId := uuid (c.drawn + 1) } := by
  have hknown : turnsByKey imported.key =
      some ⟨(newTurn uuid session c imported).row, (newAttempt uuid session c imported).row⟩ :=
    h.turns _ (.head _)
  have hattempt : importedAttempt session (newTurn uuid session c imported).row.id
      (newAttempt uuid session c imported).row.id imported =
        newAttempt uuid session c imported := rfl
  rcases hinput : imported.input with _ | input
  · have hturn : importedTurn session (newTurn uuid session c imported).row.id
        (newTurn uuid session c imported).row.ordinal
        (newTurn uuid session c imported).row.inputItemId imported =
          newTurn uuid session c imported := by
      simp only [newTurn, importedTurn, Turn.row]
    have hitems : stepItems uuid session c sequence (.turn imported) = [] := by
      simp [stepItems, newItems, newInput, hinput]
    simp only [step, openTurn, hknown, hinput, map_some, Reading.draw, bind_some,
      orElse_eq_orElse, orElse_eq_or, none_or, hturn, hattempt,
      all_some, hitems]
    cases (newTurn uuid session c imported).row.changed (newTurn uuid session c imported) <;>
      cases (newAttempt uuid session c imported).row.changed
        (newAttempt uuid session c imported) <;>
      simp [Reading.emit] <;> exact ⟨rfl, rfl⟩
  · have hitems : stepItems uuid session c sequence (.turn imported) =
        [againInput uuid session c sequence input] := by
      simp [stepItems, newItems, newInput, hinput, againInput]
    have hitem : d.itemsByKey input.key = some (againInput uuid session c sequence input) := by
      refine h.items (againInput uuid session c sequence input) (mem_append_left _ ?_)
      rw [hitems]
      exact .head _
    have hinput' : userMessage session (againInput uuid session c sequence input).id
        (newTurn uuid session c imported).row.id input
        (some (againInput uuid session c sequence input)) =
          againInput uuid session c sequence input := rfl
    have hsame : (againInput uuid session c sequence input).changed
        (againInput uuid session c sequence input) = false := Item.changed_iff.mpr rfl
    have hturn : importedTurn session (newTurn uuid session c imported).row.id
        (newTurn uuid session c imported).row.ordinal
        (some (againInput uuid session c sequence input).id) imported =
          newTurn uuid session c imported := by
      simp only [newTurn, newInput, hinput, importedTurn, Turn.row, map_some, againInput]
    simp only [step, openTurn, hknown, hinput, hitem, map_some, Reading.draw, orElse_eq_orElse,
      orElse_eq_or, some_or, hinput',
      hturn, hattempt, push_known, hsame, all_some, hitems]
    cases (newTurn uuid session c imported).row.changed (newTurn uuid session c imported) <;>
      cases (newAttempt uuid session c imported).row.changed
        (newAttempt uuid session c imported) <;>
      simp [Reading.emit] <;> exact ⟨rfl, rfl⟩

theorem entries_cons (x : Step) (xs : List Step) : ((x :: xs).flatMap Step.entries).map Prod.fst =
      x.entries.map Prod.fst ++ (xs.flatMap Step.entries).map Prod.fst := by
  rw [flatMap_cons, map_append]

/-- An item under its key leaves the others where they are. -/
theorem keyed_rows {map : String → Option Item} {again : Item}
    {rows : List Item} (hagain : again.nativeRef = some ref) (hkey : ref.id ∉ rows.map Item.key)
    (hitems : ∀ item ∈ rows, map item.key = some item) :
    ∀ item ∈ rows, keyed map again item.key = some item := by
  intro item hitem
  rw [keyed_of_ne hagain fun heq => hkey (heq ▸ mem_map_of_mem hitem)]
  exact hitems item hitem

theorem keyed_others {map map' : String → Option Item} {added again : Item}
    {keys : List String} (hadded : added.nativeRef = some ref)
    (hagain : again.nativeRef = some ref) (hid : again.id = added.id)
    (hothers : ∀ other, other ≠ "" → other ∉ ref.id :: keys →
      (map' other).map Item.id = (map other).map Item.id) :
    ∀ other, other ≠ "" → other ∉ keys →
      (keyed map' again other).map Item.id = (keyed map added other).map Item.id := by
  intro other hother hnot
  rw [keyed_apply hagain, keyed_apply hadded]
  by_cases heq : ref.id ≠ "" ∧ other = ref.id
  · rw [if_pos heq, if_pos heq, map_some, map_some, hid]
  · rw [if_neg heq, if_neg heq]
    refine hothers other hother fun hmem => ?_
    rcases mem_cons.mp hmem with rfl | hmem
    · exact heq ⟨hother, rfl⟩
    · exact hnot hmem

theorem Replays.step_item (h : Replays uuid session turnsByKey c d sequence (.item imported :: xs))
    (hnodup : (((Step.item imported :: xs).flatMap Step.entries).map Prod.fst).Nodup) :
    Replays uuid session turnsByKey (newStep uuid session c (.item imported))
      (step uuid session turnsByKey d (.item imported)) (sequence + 1) xs := by
  rw [step_item_again uuid session h]
  have hkey : imported.key ∉ (xs.flatMap Step.entries).map Prod.fst :=
    (nodup_cons.mp hnodup).1
  rw [← runItems_keys uuid session (newStep uuid session c (.item imported)) (sequence + 1)]
    at hkey
  exact
    { turnId := h.turnId
      attemptId := h.attemptId
      turns := h.turns
      items := keyed_rows rfl hkey (List.forall_mem_cons.mp h.items).2
      others := keyed_others rfl rfl rfl h.others }

theorem Replays.step_turn {imported : ImportedTurn}
    (h : Replays uuid session turnsByKey c d sequence (.turn imported :: xs))
    (hnodup : (((Step.turn imported :: xs).flatMap Step.entries).map Prod.fst).Nodup) :
    Replays uuid session turnsByKey (newStep uuid session c (.turn imported))
      (step uuid session turnsByKey d (.turn imported))
      (sequence + (newEvents uuid session c (.turn imported)).length) xs := by
  rw [step_turn_again uuid session h]
  have hrest : ∀ item ∈ runItems uuid session (newStep uuid session c (.turn imported))
      (sequence + (newEvents uuid session c (.turn imported)).length) xs,
      d.itemsByKey item.key = some item :=
    fun item hitem => h.items item (mem_append_right _ hitem)
  rw [entries_cons] at hnodup
  have hothers := h.others
  rw [entries_cons] at hothers
  rcases hinput : imported.input with _ | input
  · have hitems : stepItems uuid session c sequence (.turn imported) = [] := by
      simp [stepItems, newItems, newInput, hinput]
    refine ⟨rfl, rfl, (List.forall_mem_cons.mp h.turns).2, ?_, ?_⟩
    · rw [hitems]
      exact hrest
    · rw [hitems]
      simp only [Step.entries]
        at hothers
      simpa [newStep, newInput, hinput] using hothers
  · have hitems : stepItems uuid session c sequence (.turn imported) =
        [againInput uuid session c sequence input] := by
      simp [stepItems, newItems, newInput, hinput, againInput]
    simp only [Step.entries, hinput] at hothers hnodup
    have hkey := (nodup_cons.mp hnodup).1
    rw [← runItems_keys uuid session (newStep uuid session c (.turn imported))
      (sequence + (newEvents uuid session c (.turn imported)).length)] at hkey
    refine ⟨rfl, rfl, (List.forall_mem_cons.mp h.turns).2, ?_, ?_⟩
    · rw [hitems]
      exact keyed_rows rfl hkey hrest
    · rw [hitems]
      simp only [newStep, newInput, hinput]
      exact keyed_others rfl rfl rfl hothers

theorem foldl_keyed {map : String → Option Item} {items : List Item} {key : String}
    (h : ∀ item ∈ items, ∃ ref, item.nativeRef = some ref ∧ ref.id ≠ key) :
    items.foldl keyed map key = map key := by
  induction items generalizing map with
  | nil => rfl
  | cons item items ih =>
    obtain ⟨ref, href, hne⟩ := h item (.head _)
    rw [foldl_cons, ih (List.forall_mem_cons.mp h).2, keyed_of_ne href hne]

/-- **A step that comes again changes nothing but what is said**, and says nothing where it is
quiet. -/
theorem replay_step {x : Step} (h : Replays uuid session turnsByKey c d sequence (x :: xs))
    (hnew : ∀ entry ∈ (x :: xs).flatMap Step.entries, c.itemsByKey entry.1 = none)
    (hnodup : (((x :: xs).flatMap Step.entries).map Prod.fst).Nodup) :
    Replays uuid session turnsByKey (newStep uuid session c x) (step uuid session turnsByKey d x)
      (sequence + (newEvents uuid session c x).length) xs ∧
    (step uuid session turnsByKey d x).drawn = d.drawn ∧
    (step uuid session turnsByKey d x).ordinal = d.ordinal ∧ (∀ key, key ∉ x.entries.map Prod.fst →
      (step uuid session turnsByKey d x).itemsByKey key = d.itemsByKey key) ∧
    ∃ events, (step uuid session turnsByKey d x).events = d.events ++ events ∧
      (events = [] ↔ Quiet xs x) := by
  cases x with
  | item imported =>
    refine ⟨h.step_item uuid session hnodup, ?_⟩
    rw [step_item_again uuid session h]
    refine ⟨rfl, rfl, fun key hkey => keyed_of_ne rfl fun heq => hkey ?_, _, rfl, ?_⟩
    · rw [← heq]
      exact .head _
    rw [← parent_quiet_iff uuid session h hnew]
    have hchanged : Item.changed { newItem uuid session c imported with position := sequence + 1 }
        (againItem uuid session c d sequence imported) = false ↔
          parentOf c.itemsByKey imported = parentOf d.itemsByKey imported := by
      rw [Item.changed_iff]
      simp [againItem, newItem, importedItem]
    split <;> simp_all
  | turn imported =>
    refine ⟨h.step_turn uuid session hnodup, ?_⟩
    rw [step_turn_again uuid session h]
    refine ⟨rfl, rfl, fun key hkey => foldl_keyed fun item hitem => ?_, _, append_assoc .., ?_⟩
    · have href := mem_map_of_mem (f := Item.nativeRef) hitem
      rw [stepItems_refs] at href
      obtain ⟨entry, hentry, href⟩ := mem_map.mp href
      refine ⟨_, href.symm, fun heq => hkey ?_⟩
      rw [← heq]
      exact mem_map_of_mem hentry
    have hturn := turn_quiet_iff uuid session c imported
    have hattempt := attempt_quiet_iff uuid session c imported
    by_cases hquiet : imported.startedAt.Iso ∧ ∀ at' ∈ imported.completedAt, at'.Iso
    · rw [hturn.mpr hquiet, hattempt.mpr hquiet]
      exact iff_of_true rfl hquiet
    · rw [if_pos ((Bool.not_eq_false _).mp (mt hturn.mp hquiet))]
      exact iff_of_false (by simp) hquiet

/-- Nothing is said of a run that comes again. -/
def AllQuiet : List Step → Prop
  | [] => True
  | x :: xs => Quiet xs x ∧ AllQuiet xs

/-- **A run that comes again says nothing exactly where it is quiet.** -/
theorem replay_run (h : Replays uuid session turnsByKey c d sequence xs)
    (hnew : AllNew (fun _ => none) c.itemsByKey xs) :
    (∃ last, Replays uuid session turnsByKey (xs.foldl (newStep uuid session) c)
      (xs.foldl (step uuid session turnsByKey) d) last []) ∧
    (xs.foldl (step uuid session turnsByKey) d).drawn = d.drawn ∧
    (xs.foldl (step uuid session turnsByKey) d).ordinal = d.ordinal ∧
    (∀ key, key ∉ (xs.flatMap Step.entries).map Prod.fst →
      (xs.foldl (step uuid session turnsByKey) d).itemsByKey key = d.itemsByKey key) ∧
    ∃ events, (xs.foldl (step uuid session turnsByKey) d).events = d.events ++ events ∧
      (events = [] ↔ AllQuiet xs) := by
  induction xs generalizing c d sequence with
  | nil =>
    exact ⟨⟨sequence, h⟩, rfl, rfl, fun _ _ => rfl, [], (append_nil _).symm,
      iff_of_true rfl trivial⟩
  | cons x xs ih =>
    obtain ⟨hnext, hdrawn, hordinal, hmap, events, hevents, hquiet⟩ :=
      replay_step uuid session h hnew.items hnew.nodup
    obtain ⟨hlast, hdrawn', hordinal', hmap', rest, hrest, hquiet'⟩ :=
      ih hnext (hnew.tail uuid session)
    refine ⟨hlast, hdrawn'.trans hdrawn, hordinal'.trans hordinal, fun key hkey => ?_,
      events ++ rest, ?_, ?_⟩
    · rw [entries_cons, mem_append, not_or] at hkey
      exact (hmap' key hkey.2).trans (hmap key hkey.1)
    · rw [foldl_cons, hrest, hevents, append_assoc]
    · rw [append_eq_nil_iff, hquiet, hquiet', AllQuiet]

end

/-! ## Reading on -/

/-- The two readings go on alike. -/
structure Alike (c d : Cursor) : Prop where
  drawn : d.drawn = c.drawn
  ordinal : d.ordinal = c.ordinal
  turnId : d.turnId = c.turnId
  attemptId : d.attemptId = c.attemptId
  ids : ∀ key, key ≠ "" → (d.itemsByKey key).map Item.id = (c.itemsByKey key).map Item.id

section

variable {c d : Cursor}

section

variable (h : Alike c d)
include h

theorem Alike.parent (imported : ImportedItem) :
    parentOf d.itemsByKey imported = parentOf c.itemsByKey imported := by
  rcases hparent : truthy imported.parentKey with _ | parent
  · simp [parentOf, hparent]
  · have hne : parent ≠ "" := by
      simp only [truthy, filter_eq_some_iff, decide_eq_true_eq] at hparent
      exact hparent.2
    simp only [parentOf, hparent, bind_some, h.ids parent hne]

theorem Alike.input (imported : ImportedTurn) :
    newInput uuid session d imported = newInput uuid session c imported := by
  simp only [newInput, h.drawn]

theorem Alike.newItem (imported : ImportedItem) :
    newItem uuid session d imported = newItem uuid session c imported := by
  simp only [Import.newItem, h.drawn, h.turnId, h.attemptId, h.parent]

theorem Alike.events (x : Step) : newEvents uuid session d x = newEvents uuid session c x := by
  cases x with
  | item imported => simp only [newEvents, h.newItem]
  | turn imported =>
    simp only [newEvents, newTurn, newAttempt, h.input, h.drawn, h.ordinal]

theorem Alike.keyed (item : Item) (key : String) (hkey : key ≠ "") :
    (keyed d.itemsByKey item key).map Item.id = (keyed c.itemsByKey item key).map Item.id := by
  rcases href : item.nativeRef with _ | ref
  · simp only [Import.keyed, href]
    exact h.ids key hkey
  · rw [keyed_apply href, keyed_apply href]
    split
    · rfl
    · exact h.ids key hkey

theorem Alike.next (x : Step) : Alike (newStep uuid session c x) (newStep uuid session d x) := by
  cases x with
  | item imported =>
    refine ⟨?_, h.ordinal, h.turnId, h.attemptId, ?_⟩
    · simp only [newStep, h.drawn]
    · simp only [newStep, h.newItem]
      exact h.keyed _
  | turn imported =>
    refine ⟨?_, ?_, ?_, ?_, ?_⟩
    · simp only [newStep, h.drawn]
    · simp only [newStep, h.ordinal]
    · simp only [newStep, h.drawn]
    · simp only [newStep, h.drawn]
    · simp only [newStep, h.input]
      cases newInput uuid session c imported with
      | none => exact h.ids
      | some item => exact h.keyed item

theorem Alike.run (xs : List Step) : runEvents uuid session d xs = runEvents uuid session c xs ∧
      Alike (xs.foldl (newStep uuid session) c) (xs.foldl (newStep uuid session) d) := by
  induction xs generalizing c d with
  | nil => exact ⟨rfl, h⟩
  | cons x xs ih =>
    obtain ⟨hevents, halike⟩ := ih (h.next uuid session x)
    exact ⟨by rw [runEvents, runEvents, hevents, h.events], halike⟩

end

end

end

/-! ## The steps of a transcript -/

def ImportedTranscript.steps (transcript : ImportedTranscript) : List Step :=
  transcript.turns.flatMap ImportedTurn.steps

theorem turnKeys_steps (transcript : ImportedTranscript) :
    transcript.steps.flatMap Step.turnKeys = transcript.turns.map ImportedTurn.key := by
  rw [ImportedTranscript.steps, flatMap_assoc, map_eq_flatMap]
  congr 1
  funext turn
  simp [ImportedTurn.steps, Step.turnKeys]

theorem entries_steps (transcript : ImportedTranscript) :
    transcript.steps.flatMap Step.entries = transcript.entries := by
  rw [ImportedTranscript.steps, flatMap_assoc, ImportedTranscript.entries]
  congr 1
  funext turn
  simp only [ImportedTurn.steps, ImportedTurn.entries, Step.entries, flatMap_cons,
    flatMap_map, ← map_eq_flatMap]

theorem ImportedTranscript.Earlier.steps {part whole : ImportedTranscript}
    (h : part.Earlier whole) : ∃ rest, whole.steps = part.steps ++ rest := by
  obtain ⟨turns, rest, hwhole, hpart | ⟨turn, items, later, rfl, ⟨more, hmore⟩, hpart⟩⟩ := h
  · exact ⟨rest.flatMap ImportedTurn.steps, by
      rw [ImportedTranscript.steps, ImportedTranscript.steps, hwhole, hpart, flatMap_append]⟩
  · refine ⟨more.map Step.item ++ later.flatMap ImportedTurn.steps, ?_⟩
    rw [ImportedTranscript.steps, ImportedTranscript.steps, hwhole, hpart]
    simp [ImportedTurn.steps, ← hmore]

/-- `InOrder`, entry by entry. -/
def Ordered : List (String × Option String) → Prop
  | [] => True
  | entry :: entries =>
    (∀ parent ∈ truthy entry.2, parent ∉ (entry :: entries).map Prod.fst) ∧ Ordered entries

theorem ordered_iff {entries : List (String × Option String)} : Ordered entries ↔
    ∀ before entry after, entries = before ++ entry :: after →
      ∀ parent ∈ truthy entry.2, parent ∉ (entry :: after).map Prod.fst := by
  induction entries with
  | nil => exact iff_of_true trivial fun before entry after h => by simp at h
  | cons entry entries ih =>
    rw [Ordered, ih]
    constructor
    · rintro ⟨hentry, hrest⟩ before other after hsplit
      cases before with
      | nil =>
        obtain ⟨rfl, rfl⟩ := List.cons.inj hsplit
        exact hentry
      | cons first before => exact hrest before other after (List.cons.inj hsplit).2
    · intro h
      exact ⟨h [] entry entries rfl, fun before other after hsplit =>
        h (entry :: before) other after (by rw [hsplit, cons_append])⟩

theorem allQuiet_iff (xs : List Step) : AllQuiet xs ↔
    Ordered (xs.flatMap Step.entries) ∧ ∀ imported, .turn imported ∈ xs →
      imported.startedAt.Iso ∧ ∀ at' ∈ imported.completedAt, at'.Iso := by
  induction xs with
  | nil => simp [AllQuiet, Ordered]
  | cons x xs ih =>
    rw [AllQuiet, ih, flatMap_cons]
    cases x with
    | item imported =>
      simp only [Step.entries, cons_append, nil_append, Ordered, Quiet,
        mem_cons, reduceCtorEq, false_or, map_cons, and_assoc]
    | turn imported =>
      have hordered : Ordered (Step.entries (.turn imported) ++ xs.flatMap Step.entries) ↔
          Ordered (xs.flatMap Step.entries) := by
        rcases hinput : imported.input with _ | input <;>
          simp [Step.entries, hinput, Ordered, truthy]
      simp only [mem_cons, Step.turn.injEq, forall_eq_or_imp, Quiet]
      tauto

theorem AllQuiet.part {xs ys : List Step} (h : AllQuiet (xs ++ ys)) : AllQuiet xs := by
  induction xs with
  | nil => trivial
  | cons x xs ih =>
    rw [cons_append, AllQuiet] at h
    refine ⟨?_, ih h.2⟩
    cases x with
    | turn imported => exact h.1
    | item imported =>
      intro parent hparent hmem
      refine h.1 parent hparent ?_
      rw [flatMap_append, map_append, ← cons_append]
      exact mem_append_left _ hmem

theorem allQuiet_steps (transcript : ImportedTranscript) :
    AllQuiet transcript.steps ↔ InOrder transcript ∧ Stamped transcript := by
  rw [allQuiet_iff, entries_steps, ordered_iff, InOrder, Stamped]
  refine and_congr_right fun _ => ⟨fun h turn hturn => ?_, fun h imported hmem => ?_⟩
  · refine h { turn with items := [] } (mem_flatMap.mpr ⟨turn, hturn, .head _⟩)
  · obtain ⟨turn, hturn, hstep⟩ := mem_flatMap.mp hmem
    rcases mem_cons.mp hstep with heq | hitem
    · obtain rfl := Step.turn.inj heq
      exact h turn hturn
    · simp at hitem

/-! ## An import -/

section

variable (uuid : Nat → Id) (session : Owned)

/-- Where the first reading begins. -/
def World.start (w : World) : Cursor where
  itemsByKey := fun _ => none
  ordinal := w.session.lastOrdinal
  drawn := w.drawn
  events := []
  turnId := 0
  attemptId := 0

variable {uuid} {w : World} {transcript part : ImportedTranscript} {rest : List Step}

theorem keys_of_steps {xs ys : List Step} (hsteps : transcript.steps = xs ++ ys) {key : String}
    (hkey : key ∈ xs.flatMap Step.turnKeys) : ∃ turn ∈ transcript.turns, turn.key = key := by
  have hmem : key ∈ transcript.turns.map ImportedTurn.key := by
    rw [← turnKeys_steps, hsteps, flatMap_append]
    exact mem_append_left _ hkey
  exact mem_map.mp hmem

/-- An earlier reading of what is unread is unread. -/
theorem Unread.earlier (h : Unread uuid w transcript)
    (hsteps : transcript.steps = part.steps ++ rest) : Unread uuid w part := by
  refine ⟨h.injective, h.unused, fun attempt hattempt ref href turn hturn => ?_⟩
  obtain ⟨other, hother, hkey⟩ := keys_of_steps hsteps
    (show turn.key ∈ part.steps.flatMap Step.turnKeys by
      rw [turnKeys_steps]
      exact mem_map_of_mem hturn)
  exact hkey ▸ h.attempts attempt hattempt ref href other hother

theorem existing_unread (h : Unread uuid w transcript) :
    w.session.existing transcript = ⟨[], [], []⟩ := by
  have hexisting := @existing_eq transcript w.session [] [] w.session.sequence h.attempts
    (by simp) (by simp) (by simp) (by simp)
  simpa using hexisting

section

variable (hunread : Unread uuid w transcript) (hdistinct : Distinct transcript)
  (hsteps : transcript.steps = part.steps ++ rest)
include hunread hdistinct hsteps

/-- **The first reading is new, step by step.** -/
theorem read_first :
    w.read uuid session part = (part.steps.foldl (newStep uuid session) w.start).toReading := by
  have hnew : AllNew (fun _ => none) w.start.itemsByKey part.steps := by
    have hnodup := hdistinct.entries
    rw [← entries_steps, hsteps, flatMap_append, map_append] at hnodup
    exact ⟨fun _ _ => rfl, fun _ _ => rfl, (nodup_append.mp hnodup).1⟩
  rw [World.read, importedTranscriptEvents, existing_unread (hunread.earlier hsteps)]
  have hfold := foldl_steps uuid session (fun _ => none) part.turns w.start
  rw [← ImportedTranscript.steps, foldl_new uuid session hnew] at hfold
  exact hfold

omit hunread hdistinct hsteps in
theorem ahead_start (hunread : Unread uuid w transcript) : Ahead uuid w.start.drawn w.session where
  turns := fun n hn => (hunread.unused n hn).turns
  attempts := fun n hn => (hunread.unused n hn).attempts
  items := fun n hn item hitem => ((hunread.unused n hn).items item hitem).1

theorem imported_first : w.imported uuid session part =
      { session := (runEvents uuid session w.start part.steps).foldl Session.apply w.session
        drawn := (part.steps.foldl (newStep uuid session) w.start).drawn } := by
  have hevents := events_foldl uuid session w.start part.steps
  rw [World.imported, read_first session hunread hdistinct hsteps, hevents]
  rfl

/-- The session after the first reading: what the run recorded comes last. -/
theorem session_first : (w.imported uuid session part).session =
      { sequence := w.session.sequence + (runEvents uuid session w.start part.steps).length
        turns := w.session.turns ++
          (runTurns uuid session w.start part.steps).map Known.turn
        attempts := w.session.attempts ++
          (runTurns uuid session w.start part.steps).map Known.attempt
        items := w.session.items ++
          runItems uuid session w.start w.session.sequence part.steps } := by
  rw [imported_first session hunread hdistinct hsteps]
  exact apply_run uuid session hunread.injective (ahead_start hunread) part.steps

omit hunread hdistinct hsteps in
theorem items_of_turns {sequence : Nat} {item : Item}
    (h : item ∈ runItems uuid session w.start sequence part.steps) :
    ∃ known ∈ runTurns uuid session w.start part.steps, item.turnId = some known.turn.id := by
  rcases hturns : part.turns with _ | ⟨turn, turns⟩
  · rw [ImportedTranscript.steps, hturns] at h
    cases h
  · rw [ImportedTranscript.steps, hturns, flatMap_cons, ImportedTurn.steps, cons_append] at h ⊢
    rcases mem_append.mp h with h | h
    · obtain ⟨added, hadded, rfl⟩ := mem_map.mp h
      simp only [newItems, newInput, mem_toList, map_eq_some_iff] at hadded
      obtain ⟨input, hinput, rfl⟩ := hadded
      exact ⟨_, .head _, rfl⟩
    · rcases runItems_turn uuid session h with hturn | ⟨known, hknown, hturn⟩
      · exact ⟨_, .head _, hturn⟩
      · exact ⟨known, mem_append_right _ hknown, hturn⟩

theorem existing_again : (w.imported uuid session part).session.existing transcript =
      ⟨(runTurns uuid session w.start part.steps).map Known.turn,
        (runTurns uuid session w.start part.steps).map Known.attempt,
        runItems uuid session w.start w.session.sequence part.steps⟩ := by
  rw [session_first session hunread hdistinct hsteps]
  refine existing_eq hunread.attempts ?_ ?_ ?_ ?_
  · intro known hknown
    obtain ⟨-, n, hn, hid⟩ := runTurns_id uuid session hknown
    exact hid ▸ hunread.unused n hn
  · exact fun known hknown => (runTurns_id uuid session hknown).1
  · intro known hknown
    have href := mem_map_of_mem (f := fun known => known.attempt.nativeTurnRef) hknown
    rw [runTurns_refs] at href
    obtain ⟨key, hkey, href⟩ := mem_map.mp href
    obtain ⟨turn, hturn, rfl⟩ := keys_of_steps hsteps hkey
    exact ⟨turn, hturn, href.symm⟩
  · exact fun item => items_of_turns session

theorem lastOrdinal_again : (w.imported uuid session part).session.lastOrdinal =
      (part.steps.foldl (newStep uuid session) w.start).ordinal := by
  rw [session_first session hunread hdistinct hsteps, Session.lastOrdinal, map_append,
    foldl_append, List.map_map]
  exact runTurns_ordinal uuid session w.start part.steps

end

/-- Where the second reading begins: every record of the first under its key. -/
def again (uuid : Nat → Id) (session : Owned) (w : World) (part : ImportedTranscript) : Cursor where
  itemsByKey := byKey Item.key (runItems uuid session w.start w.session.sequence part.steps)
  ordinal := (part.steps.foldl (newStep uuid session) w.start).ordinal
  drawn := (part.steps.foldl (newStep uuid session) w.start).drawn
  events := []
  turnId := 0
  attemptId := 0

theorem byKey_of_not_mem {Row : Type} {keyOf : Row → String} {rows : List Row} {key : String}
    (h : key ∉ rows.map keyOf) : byKey keyOf rows key = none :=
  foldl_update_of_not_mem h

section

variable (hdistinct : Distinct transcript) (hsteps : transcript.steps = part.steps ++ rest)
include hdistinct hsteps

theorem nodup_items : ((part.steps.flatMap Step.entries).map Prod.fst).Nodup := by
  have hnodup := hdistinct.entries
  rw [← entries_steps, hsteps, flatMap_append, map_append] at hnodup
  exact (nodup_append.mp hnodup).1

theorem nodup_turns : (part.steps.flatMap Step.turnKeys).Nodup := by
  have hnodup := hdistinct.turns
  rw [← turnKeys_steps, hsteps, flatMap_append] at hnodup
  exact (nodup_append.mp hnodup).1

theorem replays_again :
    Replays uuid session (byKey Known.key (runTurns uuid session w.start part.steps)) w.start
      (again uuid session w part) w.session.sequence part.steps where
  turnId := rfl
  attemptId := rfl
  turns := by
    intro known hknown
    refine foldl_update_of_mem ?_ hknown
    rw [runTurns_keys]
    exact nodup_turns hdistinct hsteps
  items := by
    intro item hitem
    refine foldl_update_of_mem ?_ hitem
    rw [runItems_keys]
    exact nodup_items hdistinct hsteps
  others := by
    intro key _ hkey
    rw [← runItems_keys uuid session w.start w.session.sequence] at hkey
    simp only [again, byKey_of_not_mem hkey]
    rfl

end

section

variable (hunread : Unread uuid w transcript) (hdistinct : Distinct transcript)
include hunread hdistinct

theorem read_again_eq (hsteps : transcript.steps = part.steps ++ rest) :
    (w.imported uuid session part).read uuid session transcript = (transcript.steps.foldl
        (step uuid session (byKey Known.key (runTurns uuid session w.start part.steps)))
        (again uuid session w part)).toReading := by
  have hturns := @turnsByKey_eq (runTurns uuid session w.start part.steps)
    (runItems uuid session w.start w.session.sequence part.steps)
    (runTurns_nodup uuid session hunread.injective _ _)
    (fun known hknown => (runTurns_id uuid session hknown).1)
    (fun known hknown hnone => by
      have href := mem_map_of_mem (f := fun known => known.attempt.nativeTurnRef) hknown
      simp [runTurns_refs, hnone] at href)
  have hitems := @itemsByKey_eq (runItems uuid session w.start w.session.sequence part.steps)
    ((runTurns uuid session w.start part.steps).map Known.turn)
    ((runTurns uuid session w.start part.steps).map Known.attempt)
    (fun item hitem hnone => by
      have href := mem_map_of_mem (f := Item.nativeRef) hitem
      simp [runItems_refs, hnone] at href)
  rw [World.read, importedTranscriptEvents, existing_again session hunread hdistinct hsteps,
    lastOrdinal_again session hunread hdistinct hsteps, hturns, hitems,
    imported_first session hunread hdistinct hsteps]
  exact foldl_steps uuid session _ transcript.turns (again uuid session w part)

omit hunread hdistinct in
theorem not_mem_of_nodup {Key : Type} {xs ys : List Key} (h : (xs ++ ys).Nodup) {key : Key}
    (hkey : key ∈ ys) : key ∉ xs := fun hmem => (nodup_append.mp h).2.2 key hmem key hkey rfl

/-- **The second reading says what is not quiet, and then what is new.** -/
theorem read_again (hsteps : transcript.steps = part.steps ++ rest) :
    ∃ events, (events = [] ↔ AllQuiet part.steps) ∧
      ((w.imported uuid session part).read uuid session transcript).events = events ++
        runEvents uuid session (part.steps.foldl (newStep uuid session) w.start) rest ∧
      ((w.imported uuid session part).read uuid session transcript).drawn =
        (rest.foldl (newStep uuid session)
          (part.steps.foldl (newStep uuid session) w.start)).drawn := by
  have hnew : AllNew (fun _ => none) w.start.itemsByKey part.steps :=
    ⟨fun _ _ => rfl, fun _ _ => rfl, nodup_items hdistinct hsteps⟩
  obtain ⟨⟨last, hlast⟩, hdrawn, hordinal, hmap, events, hevents, hquiet⟩ :=
    replay_run uuid session (replays_again session hdistinct hsteps) hnew
  have halike : Alike (part.steps.foldl (newStep uuid session) w.start)
      (part.steps.foldl
        (step uuid session (byKey Known.key (runTurns uuid session w.start part.steps)))
        (again uuid session w part)) :=
    { drawn := hdrawn
      ordinal := hordinal
      turnId := hlast.turnId
      attemptId := hlast.attemptId
      ids := fun key hkey => hlast.others key hkey (by simp) }
  have hentries := hdistinct.entries
  rw [← entries_steps, hsteps, flatMap_append, map_append] at hentries
  have hturns := hdistinct.turns
  rw [← turnKeys_steps, hsteps, flatMap_append] at hturns
  have hrest : AllNew (byKey Known.key (runTurns uuid session w.start part.steps))
      (part.steps.foldl
        (step uuid session (byKey Known.key (runTurns uuid session w.start part.steps)))
        (again uuid session w part)).itemsByKey rest := by
    refine ⟨fun key hkey => byKey_of_not_mem ?_, fun entry hentry => ?_,
      (nodup_append.mp hentries).2.1⟩
    · rw [runTurns_keys]
      exact not_mem_of_nodup hturns hkey
    · have hnot := not_mem_of_nodup hentries (mem_map_of_mem hentry)
      rw [hmap _ hnot]
      refine byKey_of_not_mem ?_
      rwa [runItems_keys]
  obtain ⟨hsame, hgone⟩ := halike.run uuid session rest
  refine ⟨events, hquiet, ?_, ?_⟩
  · rw [read_again_eq session hunread hdistinct hsteps, hsteps, foldl_append,
      foldl_new uuid session hrest, events_foldl, hevents, hsame]
    rfl
  · rw [read_again_eq session hunread hdistinct hsteps, hsteps, foldl_append,
      foldl_new uuid session hrest]
    exact hgone.drawn

/-- **An earlier reading only comes before.** -/
theorem grown_of_quiet
    (hquiet : AllQuiet transcript.steps) (hsteps : transcript.steps = part.steps ++ rest) :
    (w.imported uuid session part).imported uuid session transcript =
      w.imported uuid session transcript := by
  obtain ⟨events, hevents, hread, hdrawn⟩ := read_again session hunread hdistinct hsteps
  have hpart : AllQuiet part.steps := by
    rw [hsteps] at hquiet
    exact hquiet.part
  obtain rfl := hevents.mpr hpart
  have hwhole := imported_first session hunread hdistinct
    (show transcript.steps = transcript.steps ++ [] from (append_nil _).symm)
  rw [hwhole, World.imported, hread, hdrawn, imported_first session hunread hdistinct hsteps,
    hsteps, runEvents_append]
  simp only [foldl_append, foldl_nil]

omit hunread hdistinct in
theorem runTurns_append (c : Cursor) (xs ys : List Step) :
    runTurns uuid session c (xs ++ ys) = runTurns uuid session c xs ++
      runTurns uuid session (xs.foldl (newStep uuid session) c) ys := by
  induction xs generalizing c with
  | nil => rfl
  | cons x xs ih => simp only [cons_append, runTurns, ih, foldl_cons, append_assoc]

omit hunread hdistinct in
theorem runItems_append (c : Cursor) (sequence : Nat) (xs ys : List Step) :
    runItems uuid session c sequence xs <+: runItems uuid session c sequence (xs ++ ys) := by
  induction xs generalizing c sequence with
  | nil => exact nil_prefix
  | cons x xs ih => exact (prefix_append_right_inj _).mpr (ih _ _)

/-- **What was recorded once stays as it is.** -/
theorem kept_of_unread (hsteps : transcript.steps = part.steps ++ rest) :
    (w.imported uuid session part).session.turns <+:
        (w.imported uuid session transcript).session.turns ∧
      (w.imported uuid session part).session.attempts <+:
        (w.imported uuid session transcript).session.attempts ∧
      (w.imported uuid session part).session.items <+:
        (w.imported uuid session transcript).session.items := by
  have hwhole := session_first session hunread hdistinct
    (show transcript.steps = transcript.steps ++ [] from (append_nil _).symm)
  rw [hwhole, session_first session hunread hdistinct hsteps, hsteps, runTurns_append,
    map_append, map_append]
  exact ⟨(prefix_append_right_inj _).mpr (prefix_append _ _),
    (prefix_append_right_inj _).mpr (prefix_append _ _),
    (prefix_append_right_inj _).mpr (runItems_append session _ _ _ _)⟩

end

end

/-! ## A subagent and its work -/

def noted (key : String) (parentKey : Option String) : ImportedItem :=
  ⟨key, parentKey, .completed, ⟨2, 0⟩, .subagent key ⟨"null"⟩⟩

/-- A turn that runs a subagent, whose work is read in one order or the other. -/
def delegated (items : List ImportedItem) : ImportedTranscript :=
  ⟨[⟨"turn", some ⟨"ask", "Look into it", ⟨1, 0⟩⟩, .completed, none, ⟨1, 0⟩, some ⟨3, 0⟩, items⟩]⟩

/-- A session that has just been made. -/
def made : World := ⟨⟨0, [], [], []⟩, 0⟩

theorem unread_made (transcript : ImportedTranscript) : Unread id made transcript where
  injective := Function.injective_id
  unused := fun n _ => ⟨by simp [made], by simp [made], by simp [made]⟩
  attempts := by simp [made]

end Catamorphic.Sessions.Import
