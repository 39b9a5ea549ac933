import Catamorphic.Sessions.TranscriptImport

/-!
# The runs of a reading

A reading comes to one turn or item after another. Where none of them is known yet, every step
adds its records and says so, and the session's rows grow by what the run recorded.
-/

namespace Catamorphic.Sessions.Import

open List Option
open Protocol (Id)

/-! ## A reading, step by step -/

/-- What a reading comes to: a turn, whose items are to come, or an item. -/
inductive Step
  | turn (imported : ImportedTurn)
  | item (imported : ImportedItem)

def ImportedTurn.steps (turn : ImportedTurn) : List Step :=
  .turn { turn with items := [] } :: turn.items.map .item

def step (uuid : Nat → Id) (session : Owned) (turnsByKey : String → Option Known) (c : Cursor) :
    Step → Cursor
  | .turn imported => openTurn uuid session turnsByKey c.toReading imported
  | .item imported => importItem uuid session c imported

def Step.entries : Step → List (String × Option String)
  | .turn imported => imported.input.toList.map fun input => (input.key, none)
  | .item imported => [(imported.key, imported.parentKey)]

def Step.turnKeys : Step → List String
  | .turn imported => [imported.key]
  | .item _ => []

variable {c : Cursor} {item : Item} {xs : List Step} {s : Session}

section

variable (uuid : Nat → Id) (session : Owned) {turnsByKey : String → Option Known} {x : Step}
  {map : String → Option Item} {key : String}

theorem foldl_steps (turnsByKey : String → Option Known) (turns : List ImportedTurn) (c : Cursor) :
    turns.foldl (importTurn uuid session turnsByKey) c.toReading =
      ((turns.flatMap ImportedTurn.steps).foldl (step uuid session turnsByKey) c).toReading := by
  induction turns generalizing c with
  | nil => rfl
  | cons turn turns ih =>
    rw [foldl_cons, flatMap_cons, foldl_append, ← ih]
    rw [ImportedTurn.steps, foldl_cons, foldl_map]
    rfl

/-! ## What is new -/

/-- A map with an item put under its key, if it has one. -/
def keyed (map : String → Option Item) (item : Item) : String → Option Item :=
  match truthy (item.nativeRef.map NativeRef.id) with
  | some key => Function.update map key (some item)
  | none => map

section

variable (c : Cursor)

def newInput (imported : ImportedTurn) : Option Item :=
  imported.input.map fun input =>
    userMessage session (uuid (c.drawn + 2)) (uuid c.drawn) input none

def newTurn (imported : ImportedTurn) : Turn :=
  importedTurn session (uuid c.drawn) (c.ordinal + 1)
    ((newInput uuid session c imported).map Item.id) imported

def newAttempt (imported : ImportedTurn) : Attempt :=
  importedAttempt session (uuid c.drawn) (uuid (c.drawn + 1)) imported

def parentOf (map : String → Option Item) (imported : ImportedItem) : Option Id :=
  (truthy imported.parentKey).bind fun key => (map key).map Item.id

def newItem (imported : ImportedItem) : Item :=
  importedItem session (uuid c.drawn) c.turnId c.attemptId imported none
    (parentOf c.itemsByKey imported)

/-- The items that a step adds. -/
def newItems : Step → List Item
  | .turn imported => (newInput uuid session c imported).toList
  | .item imported => [newItem uuid session c imported]

def newEvents : Step → List SessionEvent
  | .turn imported =>
    (newInput uuid session c imported).toList.map .itemAdded ++
      [.turnChanged (newTurn uuid session c imported),
        .attemptChanged (newAttempt uuid session c imported)]
  | .item imported => [.itemAdded (newItem uuid session c imported)]

/-- The cursor after a step that is new. -/
def newStep : Step → Cursor
  | .turn imported =>
    { itemsByKey := (newInput uuid session c imported).elim c.itemsByKey (keyed c.itemsByKey)
      ordinal := c.ordinal + 1
      drawn := c.drawn + 2 + imported.input.toList.length
      events := c.events ++ newEvents uuid session c (.turn imported)
      turnId := uuid c.drawn
      attemptId := uuid (c.drawn + 1) }
  | .item imported =>
    { itemsByKey := keyed c.itemsByKey (newItem uuid session c imported)
      ordinal := c.ordinal
      drawn := c.drawn + 1
      events := c.events ++ newEvents uuid session c (.item imported)
      turnId := c.turnId
      attemptId := c.attemptId }

end

/-- The step's keys are new to the reading. -/
def Step.New (turnsByKey : String → Option Known) (map : String → Option Item) (x : Step) : Prop :=
  (∀ key ∈ x.turnKeys, turnsByKey key = none) ∧ ∀ entry ∈ x.entries, map entry.1 = none

theorem push_new (r : Reading) (item : Item) : r.push item none = { r with
      itemsByKey := keyed r.itemsByKey item
      events := r.events ++ [.itemAdded item] } := by
  unfold Reading.push keyed
  cases truthy (item.nativeRef.map NativeRef.id) <;> rfl

theorem step_new (h : x.New turnsByKey c.itemsByKey)
    : step uuid session turnsByKey c x = newStep uuid session c x := by
  cases x with
  | turn imported =>
    have hknown : turnsByKey imported.key = none := h.1 _ (.head _)
    rcases hinput : imported.input with _ | input
    · simp [step, openTurn, hknown, hinput, Reading.draw, Reading.emit, newStep, newInput,
        newEvents, newTurn, newAttempt]
    · have hexisting : c.itemsByKey input.key = none := by
        refine h.2 (input.key, none) ?_
        simp [Step.entries, hinput]
      simp [step, openTurn, hknown, hinput, hexisting, Reading.draw, Reading.emit, push_new,
        newStep, newInput, newEvents, newTurn, newAttempt, userMessage]
  | item imported =>
    have hexisting : c.itemsByKey imported.key = none := h.2 _ (.head _)
    simp [step, importItem, hexisting, Reading.draw, push_new, newStep, newEvents, newItem,
      parentOf]

/-! ## A run of new steps -/

/-- No step of the run has been read, and no two are one. -/
structure AllNew (turnsByKey : String → Option Known) (map : String → Option Item)
    (steps : List Step) : Prop where
  turns : ∀ key ∈ steps.flatMap Step.turnKeys, turnsByKey key = none
  items : ∀ entry ∈ steps.flatMap Step.entries, map entry.1 = none
  nodup : ((steps.flatMap Step.entries).map Prod.fst).Nodup

theorem keyed_of_ne {ref : NativeRef}
    (href : item.nativeRef = some ref) (h : ref.id ≠ key) : keyed map item key = map key := by
  unfold keyed
  rw [href, map_some]
  cases hother : truthy (some ref.id) with
  | none => rfl
  | some other =>
    obtain rfl : ref.id = other := by
      simp only [truthy, filter_eq_some_iff, some.injEq] at hother
      exact hother.1
    exact Function.update_of_ne h.symm _ _

/-- What a step makes of the items that are known: those of its own keys, and no other. -/
theorem newStep_itemsByKey (h : ∀ entry ∈ x.entries, entry.1 ≠ key) :
    (newStep uuid session c x).itemsByKey key = c.itemsByKey key := by
  cases x with
  | turn imported =>
    rcases hinput : imported.input with _ | input
    · simp [newStep, newInput, hinput]
    · have hne : input.key ≠ key := h (input.key, none) (by simp [Step.entries, hinput])
      simp only [newStep, newInput, hinput]
      exact keyed_of_ne rfl hne
  | item imported => exact keyed_of_ne rfl (h _ (.head _))

theorem AllNew.tail {c : Cursor} {xs : List Step} (h : AllNew turnsByKey c.itemsByKey (x :: xs)) :
    AllNew turnsByKey (newStep uuid session c x).itemsByKey xs := by
  have hnodup := h.nodup
  rw [flatMap_cons, map_append, nodup_append] at hnodup
  refine ⟨fun key hkey => h.turns key ?_, fun entry hentry => ?_, hnodup.2.1⟩
  · rw [flatMap_cons]
    exact mem_append_right _ hkey
  · rw [newStep_itemsByKey]
    · refine h.items entry ?_
      exact mem_append_right _ hentry
    · intro other hother heq
      exact hnodup.2.2 _ (mem_map_of_mem hother) _ (mem_map_of_mem hentry) heq

theorem AllNew.head {xs : List Step} (h : AllNew turnsByKey map (x :: xs)) : x.New turnsByKey map :=
  ⟨fun key hkey => h.turns key (mem_flatMap_of_mem (.head _) hkey),
    fun entry hentry => h.items entry (mem_flatMap_of_mem (.head _) hentry)⟩

theorem foldl_new (h : AllNew turnsByKey c.itemsByKey xs) :
    xs.foldl (step uuid session turnsByKey) c = xs.foldl (newStep uuid session) c := by
  induction xs generalizing c with
  | nil => rfl
  | cons x xs ih =>
    rw [foldl_cons, foldl_cons, step_new uuid session h.head]
    exact ih (h.tail uuid session)

/-- What a run of new steps says. -/
def runEvents (c : Cursor) : List Step → List SessionEvent
  | [] => []
  | x :: xs => newEvents uuid session c x ++ runEvents (newStep uuid session c x) xs

theorem events_foldl (c : Cursor) (xs : List Step) :
    (xs.foldl (newStep uuid session) c).events = c.events ++ runEvents uuid session c xs := by
  induction xs generalizing c with
  | nil => exact (append_nil _).symm
  | cons x xs ih =>
    rw [foldl_cons, ih, runEvents, ← append_assoc]
    cases x <;> rfl

theorem runEvents_append (c : Cursor) (xs ys : List Step) : runEvents uuid session c (xs ++ ys) =
      runEvents uuid session c xs ++
        runEvents uuid session (xs.foldl (newStep uuid session) c) ys := by
  induction xs generalizing c with
  | nil => rfl
  | cons x xs ih => simp only [cons_append, runEvents, ih, foldl_cons, append_assoc]

/-! ## What a run records -/

/-- The turn that a step adds, as it reads afterwards. -/
def stepTurns (c : Cursor) : Step → List Known
  | .turn imported =>
    [⟨(newTurn uuid session c imported).row, (newAttempt uuid session c imported).row⟩]
  | .item _ => []

/-- The items that a step adds to a session that has seen so many events. -/
def stepItems (c : Cursor) (sequence : Nat) (x : Step) : List Item :=
  (newItems uuid session c x).map fun item => { item with position := sequence + 1 }

def runTurns (c : Cursor) : List Step → List Known
  | [] => []
  | x :: xs => stepTurns uuid session c x ++ runTurns (newStep uuid session c x) xs

def runItems (c : Cursor) (sequence : Nat) : List Step → List Item
  | [] => []
  | x :: xs =>
    stepItems uuid session c sequence x ++
      runItems (newStep uuid session c x) (sequence + (newEvents uuid session c x).length) xs

theorem upsert_new {Row : Type} {idOf : Row → Id} {row : Row} {update : Row → Row}
    {rows : List Row} (h : ∀ old ∈ rows, idOf old ≠ idOf row) :
    upsert idOf row update rows = rows ++ [row] := by
  have hany : (rows.any fun old => idOf old = idOf row) = false := by simpa using h
  simp [upsert, hany]

/-- The ids to come are new to the session. -/
structure Ahead (drawn : Nat) (s : Session) : Prop where
  turns : ∀ n, drawn ≤ n → ∀ turn ∈ s.turns, turn.id ≠ uuid n
  attempts : ∀ n, drawn ≤ n → ∀ attempt ∈ s.attempts, attempt.id ≠ uuid n
  items : ∀ n, drawn ≤ n → ∀ item ∈ s.items, item.id ≠ uuid n

/-- The session after a step that is new. -/
def after (c : Cursor) (s : Session) (x : Step) : Session where
  sequence := s.sequence + (newEvents uuid session c x).length
  turns := s.turns ++ (stepTurns uuid session c x).map Known.turn
  attempts := s.attempts ++ (stepTurns uuid session c x).map Known.attempt
  items := s.items ++ stepItems uuid session c s.sequence x

theorem apply_added (h : ∀ old ∈ s.items, old.id ≠ item.id) : s.apply (.itemAdded item) = { s with
        sequence := s.sequence + 1
        items := s.items ++ [{ item with position := s.sequence + 1 }] } := by
  simp only [Session.apply]
  rw [upsert_new]
  exact h

theorem apply_turn {turn : Turn} (h : ∀ old ∈ s.turns, old.id ≠ turn.id) :
    s.apply (.turnChanged turn) =
      { s with sequence := s.sequence + 1, turns := s.turns ++ [turn.row] } := by
  simp only [Session.apply]
  rw [upsert_new]
  exact h

theorem apply_attempt {attempt : Attempt} (h : ∀ old ∈ s.attempts, old.id ≠ attempt.id) :
    s.apply (.attemptChanged attempt) =
      { s with sequence := s.sequence + 1, attempts := s.attempts ++ [attempt.row] } := by
  simp only [Session.apply]
  rw [upsert_new]
  exact h

theorem apply_step (h : Ahead uuid c.drawn s) (x : Step) :
    (newEvents uuid session c x).foldl Session.apply s = after uuid session c s x := by
  cases x with
  | turn imported =>
    have hturn : ∀ old ∈ s.turns, old.id ≠ (newTurn uuid session c imported).id :=
      h.turns _ (Nat.le_refl _)
    have hattempt : ∀ old ∈ s.attempts, old.id ≠ (newAttempt uuid session c imported).id :=
      h.attempts _ (Nat.le_succ _)
    rcases hinput : imported.input with _ | input
    · simp only [newEvents, newInput, hinput, map_none, toList_none, map_nil,
        nil_append, foldl_cons]
      rw [apply_turn, apply_attempt]
      · simp [after, stepTurns, stepItems, newItems, newEvents, newInput, hinput]
      · exact hattempt
      · exact hturn
    · simp only [newEvents, newInput, hinput, map_some, toList_some,
        map_cons, map_nil, cons_append, nil_append, foldl_cons]
      rw [apply_added, apply_turn, apply_attempt]
      · simp [after, stepTurns, stepItems, newItems, newEvents, newInput, hinput]
      · exact hattempt
      · exact hturn
      · exact h.items _ (Nat.le_add_right _ _)
  | item imported =>
    simp only [newEvents, foldl_cons]
    rw [apply_added]
    · simp [after, stepTurns, stepItems, newItems, newEvents]
    · exact h.items _ (Nat.le_refl _)

theorem Ahead.after (hinj : Function.Injective uuid) (h : Ahead uuid c.drawn s) (x : Step) :
    Ahead uuid (newStep uuid session c x).drawn (after uuid session c s x) := by
  have hne : ∀ {n m : Nat}, m < n → uuid m ≠ uuid n := fun hlt heq => by
    have := hinj heq
    omega
  have hdrawn : c.drawn < (newStep uuid session c x).drawn := by
    cases x <;> simp only [newStep] <;> omega
  constructor
  · intro n hn turn hturn
    rcases mem_append.mp hturn with hturn | hturn
    · exact h.turns n (by omega) turn hturn
    · cases x with
      | turn imported =>
        obtain rfl := mem_singleton.mp hturn
        exact hne (by omega)
      | item imported => cases hturn
  · intro n hn attempt hattempt
    rcases mem_append.mp hattempt with hattempt | hattempt
    · exact h.attempts n (by omega) attempt hattempt
    · cases x with
      | turn imported =>
        obtain rfl := mem_singleton.mp hattempt
        simp only [newStep] at hn
        exact hne (by omega)
      | item imported => cases hattempt
  · intro n hn item hitem
    rcases mem_append.mp hitem with hitem | hitem
    · exact h.items n (by omega) item hitem
    · obtain ⟨added, hadded, rfl⟩ := mem_map.mp hitem
      cases x with
      | turn imported =>
        simp only [newItems, newInput, mem_toList, map_eq_some_iff] at hadded
        obtain ⟨input, hinput, rfl⟩ := hadded
        simp only [newStep, hinput, toList_some, length_singleton] at hn
        exact hne (by omega)
      | item imported =>
        obtain rfl := mem_singleton.mp hadded
        exact hne (by omega)

/-- **What a run of new steps makes of a session**: its records come after those there are. -/
theorem apply_run (hinj : Function.Injective uuid) (h : Ahead uuid c.drawn s) (xs : List Step) :
    (runEvents uuid session c xs).foldl Session.apply s =
      { sequence := s.sequence + (runEvents uuid session c xs).length
        turns := s.turns ++ (runTurns uuid session c xs).map Known.turn
        attempts := s.attempts ++ (runTurns uuid session c xs).map Known.attempt
        items := s.items ++ runItems uuid session c s.sequence xs } := by
  induction xs generalizing c s with
  | nil => simp [runEvents, runTurns, runItems]
  | cons x xs ih =>
    rw [runEvents, foldl_append, apply_step uuid session h, ih (h.after uuid session hinj x)]
    simp only [after, runTurns, runItems, length_append, map_append, append_assoc, Nat.add_assoc]

/-! ## The records of a run -/

theorem runTurns_id {known : Known} (h : known ∈ runTurns uuid session c xs) :
    known.attempt.turnId = known.turn.id ∧ ∃ n, c.drawn ≤ n ∧ known.turn.id = uuid n := by
  induction xs generalizing c with
  | nil => cases h
  | cons x xs ih =>
    rcases mem_append.mp h with h | h
    · cases x with
      | turn imported =>
        obtain rfl := mem_singleton.mp h
        exact ⟨rfl, c.drawn, Nat.le_refl _, rfl⟩
      | item imported => cases h
    · obtain ⟨hattempt, n, hn, hid⟩ := ih h
      refine ⟨hattempt, n, Nat.le_trans ?_ hn, hid⟩
      cases x <;> simp only [newStep] <;> omega

theorem runTurns_nodup (hinj : Function.Injective uuid) (c : Cursor) (xs : List Step) :
    ((runTurns uuid session c xs).map fun known => known.turn.id).Nodup := by
  induction xs generalizing c with
  | nil => exact nodup_nil
  | cons x xs ih =>
    cases x with
    | item imported => exact ih _
    | turn imported =>
      refine nodup_cons.mpr ⟨fun hmem => ?_, ih _⟩
      obtain ⟨known, hknown, heq⟩ := mem_map.mp hmem
      obtain ⟨-, n, hn, hid⟩ := runTurns_id uuid session hknown
      have hsame : uuid n = uuid c.drawn := hid.symm.trans heq
      have := hinj hsame
      simp only [newStep] at hn
      omega

theorem runTurns_refs (c : Cursor) (xs : List Step) :
    (runTurns uuid session c xs).map (fun known => known.attempt.nativeTurnRef) =
      (xs.flatMap Step.turnKeys).map fun key => some ⟨key, true⟩ := by
  induction xs generalizing c with
  | nil => rfl
  | cons x xs ih =>
    rw [runTurns, map_append, ih, flatMap_cons, map_append]
    cases x <;> rfl

theorem stepItems_refs (c : Cursor) (sequence : Nat) (x : Step) :
    (stepItems uuid session c sequence x).map Item.nativeRef =
      x.entries.map fun entry => some ⟨entry.1, true⟩ := by
  cases x with
  | item imported => rfl
  | turn imported =>
    rcases hinput : imported.input with _ | input <;>
      simp [stepItems, newItems, newInput, Step.entries, hinput, userMessage]

theorem runItems_refs (c : Cursor) (sequence : Nat) (xs : List Step) :
    (runItems uuid session c sequence xs).map Item.nativeRef =
      (xs.flatMap Step.entries).map fun entry => some ⟨entry.1, true⟩ := by
  induction xs generalizing c sequence with
  | nil => rfl
  | cons x xs ih =>
    rw [runItems, map_append, ih, stepItems_refs, flatMap_cons, map_append]

theorem runItems_turn {sequence : Nat} (h : item ∈ runItems uuid session c sequence xs) :
    item.turnId = some c.turnId ∨
      ∃ known ∈ runTurns uuid session c xs, item.turnId = some known.turn.id := by
  induction xs generalizing c sequence with
  | nil => cases h
  | cons x xs ih =>
    rcases mem_append.mp h with h | h
    · obtain ⟨added, hadded, rfl⟩ := mem_map.mp h
      cases x with
      | item imported =>
        obtain rfl := mem_singleton.mp hadded
        exact .inl rfl
      | turn imported =>
        simp only [newItems, newInput, mem_toList, map_eq_some_iff] at hadded
        obtain ⟨input, hinput, rfl⟩ := hadded
        exact .inr ⟨_, .head _, rfl⟩
    · rcases ih h with hturn | ⟨known, hknown, hturn⟩
      · cases x with
        | item imported => exact .inl hturn
        | turn imported => exact .inr ⟨_, .head _, hturn⟩
      · exact .inr ⟨known, mem_append_right _ hknown, hturn⟩

end

end Catamorphic.Sessions.Import
