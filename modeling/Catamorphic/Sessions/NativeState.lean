import Mathlib.Data.List.Basic

/-!
# Native state

The entries a provider thread's harness stores with Work, as rows with a sequence number
per thread and subpath. An entry that carries a `uuid` is stored once.
-/

namespace Catamorphic.Sessions.NativeState

open List

/-- An entry as the harness wrote it. -/
structure Entry where
  uuid : Option Nat
  json : String
  deriving DecidableEq

/-- Where an append goes: a thread, and a subpath of it. -/
structure Place where
  thread : Nat
  subpath : Nat
  deriving DecidableEq

/-- A row of `agent_provider_thread_entries`. -/
structure EntryRow where
  place : Place
  seq : Nat
  entry : Entry
  deriving DecidableEq

abbrev Store := List EntryRow

/-- The highest sequence number at a place, 0 where there is none. -/
def Store.lastSeq (store : Store) (place : Place) : Nat :=
  ((store.filter (·.place = place)).map EntryRow.seq).foldl max 0

/-- The unique index on the thread, the subpath and the entry's uuid. -/
def Store.conflicts (store : Store) (place : Place) (entry : Entry) : Bool :=
  entry.uuid.isSome && store.any (fun row => row.place = place && row.entry.uuid = entry.uuid)

/-- One inserted value: the sequence goes up even where the row conflicts. -/
def Store.insert (place : Place) (s : Store × Nat) (entry : Entry) : Store × Nat :=
  (if s.1.conflicts place entry then s.1 else s.1 ++ [⟨place, s.2 + 1, entry⟩], s.2 + 1)

/-- `NativeStateStore.append`. Its batches of statements insert the values one after another. -/
def Store.append (store : Store) (place : Place) (entries : List Entry) : Store :=
  (entries.foldl (Store.insert place) (store, store.lastSeq place)).1

/-- `NativeStateStore.load`, an absent thread as the empty list: the entries by sequence. -/
def Store.load (store : Store) (place : Place) : List Entry :=
  ((store.filter (·.place = place)).mergeSort (fun a b => a.seq ≤ b.seq)).map EntryRow.entry

/-- An entry after others, unless its uuid is among them. -/
def keep (stored : List Entry) (entry : Entry) : List Entry :=
  if entry.uuid.isSome && stored.any (fun e => e.uuid = entry.uuid) then stored
  else stored ++ [entry]

/-- The entries at a place, in the order of their rows. -/
def Store.entries (store : Store) (place : Place) : List Entry :=
  (store.filter (·.place = place)).map EntryRow.entry

/-- At each place the sequence numbers go up from row to row. -/
def Store.Ordered (store : Store) : Prop :=
  ∀ place, (store.filter (·.place = place)).Pairwise (fun a b => a.seq < b.seq)

theorem ordered_nil : Store.Ordered [] := fun _ => List.Pairwise.nil

theorem le_foldl_max (l : List Nat) (n : Nat) : n ≤ l.foldl max n ∧ ∀ x ∈ l, x ≤ l.foldl max n := by
  induction l generalizing n with
  | nil => simp
  | cons y l ih =>
    obtain ⟨hn, hl⟩ := ih (max n y)
    refine ⟨by rw [foldl_cons]; omega, ?_⟩
    intro x hx
    rw [foldl_cons]
    rcases mem_cons.mp hx with rfl | hx
    · omega
    · exact hl x hx

variable {store : Store} {s : Store × Nat} {place : Place}

theorem seq_le_lastSeq {row : EntryRow} (h : row ∈ store) : row.seq ≤ store.lastSeq row.place := by
  refine (le_foldl_max _ 0).2 _ (mem_map_of_mem ?_)
  exact mem_filter.mpr ⟨h, by simp⟩

/-- In an ordered store the sequence gives back the order of the rows. -/
theorem load_eq_entries (h : store.Ordered) (place : Place) :
    store.load place = store.entries place := by
  unfold Store.load Store.entries
  rw [mergeSort_of_pairwise]
  exact (h place).imp (fun hlt => by simpa using Nat.le_of_lt hlt)

/-- What an insert does at its own place and at the others. -/
theorem insert_entries (place at' : Place) (s : Store × Nat) (entry : Entry) :
    Store.entries (Store.insert place s entry).1 at' =
      if at' = place then keep (s.1.entries at') entry else s.1.entries at' := by
  by_cases hp : at' = place
  · subst hp
    have hany : s.1.any (fun row => row.place = at' && row.entry.uuid = entry.uuid) =
        (s.1.entries at').any (fun e => e.uuid = entry.uuid) := by
      simp only [Store.entries, any_map, any_filter]
      rfl
    simp only [Store.insert, Store.conflicts, keep, hany]
    split
    · rfl
    · simp [Store.entries]
  · rw [if_neg hp]
    unfold Store.insert
    split
    · rfl
    · simp [Store.entries, Ne.symm hp]

/-- A row with a sequence above the place's rows keeps the store ordered. -/
theorem ordered_insert (entry : Entry) (h : s.1.Ordered)
    (hseq : ∀ row ∈ s.1, row.place = place → row.seq ≤ s.2) :
    (Store.insert place s entry).1.Ordered ∧
      ∀ row ∈ (Store.insert place s entry).1, row.place = place →
        row.seq ≤ (Store.insert place s entry).2 := by
  unfold Store.insert
  split
  · exact ⟨h, fun row hr hp => Nat.le_succ_of_le (hseq row hr hp)⟩
  · refine ⟨?_, ?_⟩
    · intro at'
      rw [filter_append, pairwise_append]
      refine ⟨h at', ?_, ?_⟩
      · by_cases hp : place = at' <;> simp [hp]
      · intro a ha b hb
        rw [mem_filter, decide_eq_true_eq] at ha hb
        obtain ⟨hb, hp⟩ := hb
        rw [mem_singleton] at hb
        subst hb
        exact Nat.lt_succ_of_le (hseq a ha.1 (ha.2.trans hp.symm))
    · intro row hr hp
      rcases mem_append.mp hr with hr | hr
      · exact Nat.le_succ_of_le (hseq row hr hp)
      · rw [mem_singleton] at hr
        subst hr
        exact Nat.le_refl _

theorem foldl_insert (entries : List Entry) (h : s.1.Ordered)
    (hseq : ∀ row ∈ s.1, row.place = place → row.seq ≤ s.2) :
    (entries.foldl (Store.insert place) s).1.Ordered ∧
      ∀ at', (entries.foldl (Store.insert place) s).1.entries at' =
        if at' = place then entries.foldl keep (s.1.entries at') else s.1.entries at' := by
  induction entries generalizing s with
  | nil => exact ⟨h, fun at' => by simp⟩
  | cons e es ih =>
    obtain ⟨ho, hs⟩ := ordered_insert e h hseq
    obtain ⟨ho', he⟩ := ih ho hs
    refine ⟨ho', fun at' => ?_⟩
    rw [foldl_cons, he at', insert_entries]
    by_cases hp : at' = place <;> simp [hp]

/-- An append keeps the order of the rows. -/
theorem ordered_append (h : store.Ordered) (place : Place) (entries : List Entry) :
    (store.append place entries).Ordered :=
  (foldl_insert entries h (fun _ hr hp => by rw [← hp]; exact seq_le_lastSeq hr)).1

/-- **An append puts its entries after those at its place, and touches no other.** -/
theorem append_entries (h : store.Ordered) (place at' : Place)
    (entries : List Entry) : (store.append place entries).entries at' =
      if at' = place then entries.foldl keep (store.entries at') else store.entries at' :=
  (foldl_insert entries h (fun _ hr hp => by rw [← hp]; exact seq_le_lastSeq hr)).2 at'

end Catamorphic.Sessions.NativeState
