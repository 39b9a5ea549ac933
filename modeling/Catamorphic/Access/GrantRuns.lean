import Catamorphic.Access.Grants

/-!
# Grants die with what they were issued for

A grant that was revoked stays so and an allocation that was released stays so, through every
order of statements: a row changes only in the hands of the transaction that holds it, and no
update un-revokes. What is not promised under all of them is one live grant: where the
operations of one session, alias and channel follow each other, an older grant is left beside
a newer one only by design.
-/

namespace Catamorphic.Access.ConnectionGrants

open RowLocks Runs Function List Option

/-! ## What an update leaves -/

/-- A grant later on: extended, or revoked. -/
structure Later (g g' : Grant) : Prop where
  same : g' = { g with expiresAt := g'.expiresAt, revoked := g'.revoked }
  revoked : g.revoked = true → g'.revoked = true

variable {g g' g'' : Grant} {u : Update} {id : GrantId}

theorem Later.refl (g : Grant) : Later g g := ⟨rfl, id⟩

theorem Later.trans (h : Later g g') (h' : Later g' g'') : Later g g'' :=
  ⟨by rw [h'.same, h.same], fun hr => h'.revoked (h.revoked hr)⟩

theorem Later.key (h : Later g g') : g'.key = g.key := by
  rw [h.same]
  rfl

theorem Later.modelTurn (h : Later g g') : g'.modelTurn = g.modelTurn := by
  rw [h.same]

theorem Later.unrevoked (h : Later g g') (hr : g'.revoked = false) : g.revoked = false := by
  cases hg : g.revoked with
  | false => rfl
  | true => rw [h.revoked hg] at hr; exact hr

theorem later_set (u : Update) (g : Grant) : Later g (u.set g) := by
  cases u <;> exact ⟨rfl, by simp [Update.set]⟩

/-- What an update is about later on, it was about before. -/
theorem Later.covers (h : Later g g') (hc : u.covers id g' = true) : u.covers id g = true := by
  simp only [Update.covers, Bool.and_eq_true, Bool.not_eq_true'] at hc ⊢
  refine ⟨h.unrevoked hc.1, ?_⟩
  have hc' := hc.2
  rw [h.same] at hc'
  exact hc'

variable {key : Key} {keep : GrantId} {unbound : Bool}

theorem covers_previous (hr : g.revoked = false) (hk : g.key = some key) :
    (Update.previous key).covers id g = true := by
  simp [Update.covers, hr, hk]

theorem covers_key (h : (Update.previous key).covers id g = true) : g.key = some key := by
  simp only [Update.covers, Bool.and_eq_true, decide_eq_true_eq] at h
  exact h.2

theorem older_covers (hr : g.revoked = false)
    (hk : g.key = some key) (hlt : id < keep) : (Update.older key keep unbound).covers id g = true ↔
      unbound = false ∨ g.modelTurn.isNone = true := by
  simp [Update.covers, hr, hk, hlt]

theorem older_key (h : (Update.older key keep unbound).covers id g = true) : g.key = some key := by
  simp only [Update.covers, Bool.and_eq_true, decide_eq_true_eq] at h
  exact h.2.1.1

/-! ## What a statement does -/

/-- How long the rows live that a task may still write. -/
def Task.lifetimes : Task → List Time
  | .shareAllocation row _ | .shareTurn row _ | .revokePrevious row _ | .revoking row _ _
  | .insert row _ | .inserted row _ _ => [row.expiresAt]
  | .quiet statements => statements.filterMap fun
      | .update (.extend _ _ expiresAt) | .updating (.extend _ _ expiresAt) _ => some expiresAt
      | _ => none
  | _ => []

/-- The grants as a statement leaves them: as they were, with one row set, or with one inserted,
in the hands of its transaction. -/
inductive Touched (w : World) (t : TxnId) (task task' : Task) (w' : World) : Prop
  | same (grants : w'.grants = w.grants) (next : w'.next = w.next)
  | updated (u : Update) (id : GrantId) (g : Grant) (view : w.grants.view t id = some g)
      (free : w.grants.free t id = true)
      (grants : w'.grants = w.grants.hold t id (some (u.set g))) (next : w'.next = w.next)
      (lifetime : (u.set g).expiresAt = g.expiresAt ∨ (u.set g).expiresAt ∈ task.lifetimes)
  | inserted (g : Grant) (keepPrevious : Bool) (before : task = .insert g keepPrevious)
      (after : task' = .inserted g keepPrevious w.next)
      (grants : w'.grants = w.grants.hold t w.next (some g)) (next : w'.next = w.next + 1)

/-- A statement that does not end its transaction. -/
structure Moved (w : World) (t : TxnId) (task task' : Task) (w' : World) : Prop where
  now : w'.now = w.now
  notes : w'.notes = w.notes
  tasks : w'.tasks = update w.tasks t (some task')
  key : task'.key = task.key
  lifetimes : task'.lifetimes ⊆ task.lifetimes
  touched : Touched w t task task' w'
  allocations : w'.allocations = w.allocations ∨ ∃ a row, w.allocations.free t a = true ∧
    row.status = .released ∧ w'.allocations = w.allocations.hold t a (some row)

/-- A task after which its transaction commits. -/
inductive Last : Task → Option Note → Prop
  | inserted (row : Grant) (keepPrevious : Bool) (id : GrantId) :
      Last (.inserted row keepPrevious id) (if keepPrevious then some (.opened id) else none)
  | kept (key : Key) (note : Option Note) : Last (.kept key note) note
  | quiet : Last (.quiet []) none

variable {w w' : World} {t t' : TxnId} {task task' : Task}

theorem afterLocks_key (row : Grant) (keepPrevious : Bool) :
    (afterLocks row keepPrevious).key = row.key ∧
      (afterLocks row keepPrevious).lifetimes = [row.expiresAt] := by
  unfold afterLocks
  split
  · split <;> exact ⟨rfl, rfl⟩
  · exact ⟨rfl, rfl⟩

/-- A statement that touches no row. -/
theorem moved_of_same (now : w'.now = w.now) (notes : w'.notes = w.notes)
    (tasks : w'.tasks = update w.tasks t (some task')) (key : task'.key = task.key)
    (lifetimes : task'.lifetimes ⊆ task.lifetimes) (grants : w'.grants = w.grants)
    (next : w'.next = w.next) (allocations : w'.allocations = w.allocations) :
    Moved w t task task' w' :=
  ⟨now, notes, tasks, key, lifetimes, .same grants next, .inl allocations⟩

theorem moved_of_setTask (key : task'.key = task.key)
    (lifetimes : task'.lifetimes ⊆ task.lifetimes) : Moved w t task task' (w.setTask t task') :=
  moved_of_same rfl rfl rfl key lifetimes rfl rfl rfl

/-- One row of an update. -/
theorem moved_of_updateRow (h : w.updateRow t u id task' = some w') (key : task'.key = task.key)
    (lifetimes : task'.lifetimes ⊆ task.lifetimes)
    (written : ∀ g : Grant, (u.set g).expiresAt = g.expiresAt ∨
      (u.set g).expiresAt ∈ task.lifetimes) : Moved w t task task' w' := by
  obtain ⟨grants, hgrants, rfl⟩ := map_eq_some_iff.mp h
  rcases update_cases hgrants with rfl | ⟨g, hview, -, hfree, rfl⟩
  · exact moved_of_same rfl rfl rfl key lifetimes rfl rfl rfl
  · exact ⟨rfl, rfl, rfl, key, lifetimes, .updated u id g hview hfree rfl rfl (written g), .inl rfl⟩

/-- **What a step of a transaction does**: it breaks off, it commits, or it goes on to a next task
with at most one row touched. -/
theorem proceed_cases (h : w.proceed t task = some w') :
    w' = w.rollback t ∨ (∃ note, Last task note ∧ w' = w.commit t note) ∨
      ∃ task', Moved w t task task' w' := by
  cases task with
  | shareAllocation row keepPrevious =>
    simp only [World.proceed] at h
    split at h
    · split at h
      · cases h
        refine .inr (.inr ⟨_, moved_of_same rfl rfl rfl ?_ ?_ rfl rfl rfl⟩)
        · split
          · rfl
          · exact (afterLocks_key row keepPrevious).1
        · split
          · exact List.Subset.refl _
          · rw [(afterLocks_key row keepPrevious).2]
            exact List.Subset.refl _
      · exact .inl (some.inj h).symm
    · cases h
  | shareTurn row keepPrevious =>
    simp only [World.proceed] at h
    split at h
    · split at h
      · cases h
        obtain ⟨hkey, hlife⟩ := afterLocks_key row keepPrevious
        exact .inr (.inr ⟨_, moved_of_same rfl rfl rfl
          hkey (by rw [hlife]; exact List.Subset.refl _)
          rfl rfl rfl⟩)
      · exact .inl (some.inj h).symm
    · exact .inl (some.inj h).symm
  | revokePrevious row key | revokeOlder key keep unbound =>
    cases h
    exact .inr (.inr ⟨_, moved_of_setTask rfl (List.Subset.refl _)⟩)
  | revoking row key ids | revokingOlder key keep unbound ids =>
    cases ids with
    | nil =>
      cases h
      exact .inr (.inr ⟨_, moved_of_setTask rfl (List.Subset.refl _)⟩)
    | cons id ids =>
      exact .inr (.inr ⟨_, moved_of_updateRow h rfl (List.Subset.refl _) fun _ => .inl rfl⟩)
  | insert row keepPrevious =>
    cases h
    exact .inr (.inr ⟨_, rfl, rfl, rfl, rfl, List.Subset.refl _,
      .inserted row keepPrevious rfl rfl rfl rfl, .inl rfl⟩)
  | inserted row keepPrevious id =>
    exact .inr (.inl ⟨_, .inserted row keepPrevious id, (some.inj h).symm⟩)
  | selectKeep key keep =>
    have hnil : ∀ task' : Task, task'.key = some key → task'.lifetimes = [] →
        Moved w t (.selectKeep key keep) task' (w.setTask t task') := fun task' hkey hlife =>
      moved_of_setTask hkey (by rw [hlife]; exact nil_subset _)
    simp only [World.proceed] at h
    split at h
    · split at h
      · cases h
        exact .inr (.inr ⟨_, hnil _ (by split <;> rfl) (by split <;> rfl)⟩)
      · cases h
        exact .inr (.inr ⟨_, hnil _ rfl rfl⟩)
    · cases h
      exact .inr (.inr ⟨_, hnil _ rfl rfl⟩)
  | shareKept key keep fence =>
    simp only [World.proceed] at h
    split at h
    · cases h
      exact .inr (.inr ⟨_, moved_of_same rfl rfl rfl rfl (List.Subset.refl _) rfl rfl rfl⟩)
    · cases h
      exact .inr (.inr ⟨_, moved_of_setTask rfl (List.Subset.refl _)⟩)
  | kept key note => exact .inr (.inl ⟨note, .kept key note, (some.inj h).symm⟩)
  | quiet statements =>
    cases statements with
    | nil => exact .inr (.inl ⟨none, .quiet, (some.inj h).symm⟩)
    | cons statement rest =>
      cases statement with
      | update u =>
        cases h
        refine .inr (.inr ⟨_, moved_of_setTask rfl ?_⟩)
        cases u <;> exact List.Subset.refl _
      | updating u ids =>
        cases ids with
        | nil =>
          cases h
          refine .inr (.inr ⟨_, moved_of_setTask rfl ?_⟩)
          cases u <;> simp [Task.lifetimes]
        | cons id ids =>
          refine .inr (.inr ⟨_, moved_of_updateRow h rfl ?_ fun g => ?_⟩)
          · cases u <;> exact List.Subset.refl _
          · cases u with
            | extend s channel expiresAt => exact .inr mem_cons_self
            | _ => exact .inl rfl
      | release a activeOnly =>
        have hrest : (Task.quiet rest).lifetimes ⊆
          (Task.quiet (.release a activeOnly :: rest)).lifetimes :=
          List.Subset.refl _
        simp only [World.proceed] at h
        split at h
        · rename_i hfree
          split at h
          · split at h
            · cases h
              exact .inr (.inr ⟨_, rfl, rfl, rfl, rfl, hrest, .same rfl rfl,
                .inr ⟨a, _, hfree.1, rfl, rfl⟩⟩)
            · cases h
              exact .inr (.inr ⟨_, moved_of_setTask rfl hrest⟩)
          · cases h
            exact .inr (.inr ⟨_, moved_of_setTask rfl hrest⟩)
        · cases h

/-! ## Rows only get older -/

/-- What holds of the rows under every order of statements. -/
structure Sound (w : World) : Prop where
  numbered : ∀ id g, w.grants.rows id = some g → id < w.next
  held : ∀ id t row, w.grants.held id = some (t, row) → id < w.next ∧
    ∃ g, row = some g ∧ g.expiresAt ≤ w.now + MAX_GRANT_TTL_SECONDS * 1000 ∧
      ∀ g₀, w.grants.rows id = some g₀ → Later g₀ g
  bounded : ∀ id g, w.grants.rows id = some g →
    g.expiresAt ≤ w.now + MAX_GRANT_TTL_SECONDS * 1000
  lifetimes : ∀ t task, w.tasks t = some task → ∀ e ∈ task.lifetimes,
    e ≤ w.now + MAX_GRANT_TTL_SECONDS * 1000
  releasing : ∀ a t row, w.allocations.held a = some (t, row) →
    ∃ r : Allocation, row = some r ∧ r.status = .released

/-- Grants of `w` are in `w'` as they were or older, and what was released is. -/
structure Onward (w w' : World) : Prop where
  grants : ∀ id g, w.grants.rows id = some g → ∃ g', w'.grants.rows id = some g' ∧ Later g g'
  released : ∀ a row, w.allocations.rows a = some row → row.status = .released →
    ∃ row', w'.allocations.rows a = some row' ∧ row'.status = .released

theorem Onward.refl (w : World) : Onward w w :=
  ⟨fun _ g h => ⟨g, h, .refl g⟩, fun _ row h hr => ⟨row, h, hr⟩⟩

theorem Onward.trans {w'' : World} (h : Onward w w') (h' : Onward w' w'') : Onward w w'' where
  grants id g hg := by
    obtain ⟨g₁, h₁, hl₁⟩ := h.grants id g hg
    obtain ⟨g₂, h₂, hl₂⟩ := h'.grants id g₁ h₁
    exact ⟨g₂, h₂, hl₁.trans hl₂⟩
  released a row hrow hr := by
    obtain ⟨row₁, h₁, hr₁⟩ := h.released a row hrow hr
    exact h'.released a row₁ h₁ hr₁

theorem onward_of_rows (hg : w'.grants.rows = w.grants.rows)
    (ha : w'.allocations.rows = w.allocations.rows) : Onward w w' :=
  ⟨fun id g h => ⟨g, by rw [hg, h], .refl g⟩, fun a row h hr => ⟨row, by rw [ha, h], hr⟩⟩

/-- What a transaction sees is committed, or in its hands. -/
theorem Sound.view (h : Sound w) (hview : w.grants.view t id = some g) : id < w.next ∧
    g.expiresAt ≤ w.now + MAX_GRANT_TTL_SECONDS * 1000 ∧
      ∀ g₀, w.grants.rows id = some g₀ → Later g₀ g := by
  by_cases hrow : w.grants.rows id = some g
  · refine ⟨h.numbered id g hrow, h.bounded id g hrow, fun g₀ h₀ => ?_⟩
    cases hrow.symm.trans h₀
    exact .refl g
  · have hheld := held_of_view (fun heq => hrow (heq ▸ hview))
    rw [hview] at hheld
    obtain ⟨hlt, g₁, hsome, hlife, hlater⟩ := h.held id t _ hheld
    cases hsome
    exact ⟨hlt, hlife, hlater⟩

theorem Sound.moved (h : Sound w) (htask : w.tasks t = some task) (hm : Moved w t task task' w') :
    Sound w' ∧ Onward w w' := by
  have hlife := h.lifetimes t task htask
  have halloc : w'.allocations.rows = w.allocations.rows ∧ ∀ a t row,
      w'.allocations.held a = some (t, row) → ∃ r : Allocation, row = some r ∧
        r.status = .released := by
    rcases hm.allocations with ha | ⟨a, row, -, hr, ha⟩
    · rw [ha]
      exact ⟨rfl, h.releasing⟩
    · rw [ha]
      refine ⟨rfl, fun a' t' row' hheld => ?_⟩
      rcases hold_some hheld with ⟨-, -, rfl⟩ | ⟨-, hheld⟩
      · exact ⟨row, rfl, hr⟩
      · exact h.releasing a' t' row' hheld
  have htasks : ∀ t' task₁, w'.tasks t' = some task₁ → ∀ e ∈ task₁.lifetimes,
      e ≤ w'.now + MAX_GRANT_TTL_SECONDS * 1000 := by
    intro t' task₁ ht e he
    rw [hm.now]
    rw [hm.tasks] at ht
    by_cases heq : t' = t
    · subst heq
      rw [update_self] at ht
      cases ht
      exact hlife e (hm.lifetimes he)
    · rw [update_of_ne heq] at ht
      exact h.lifetimes t' task₁ ht e he
  cases hm.touched with
  | same grants next =>
    refine ⟨⟨?_, ?_, ?_, htasks, halloc.2⟩, onward_of_rows (by rw [grants]) halloc.1⟩
    · rw [grants, next]
      exact h.numbered
    · rw [grants, next, hm.now]
      exact h.held
    · rw [grants, hm.now]
      exact h.bounded
  | updated u id g view free grants next lifetime =>
    obtain ⟨hlt, hexp, hlater⟩ := h.view view
    refine ⟨⟨?_, ?_, ?_, htasks, halloc.2⟩, onward_of_rows (by rw [grants]; rfl) halloc.1⟩
    · rw [grants, next]
      exact h.numbered
    · rw [grants, next, hm.now]
      intro id' t' row hheld
      rcases hold_some hheld with ⟨rfl, -, rfl⟩ | ⟨-, hheld⟩
      · refine ⟨hlt, _, rfl, ?_, fun g₀ h₀ => (hlater g₀ h₀).trans (later_set u g)⟩
        rcases lifetime with heq | hmem
        · rw [heq]
          exact hexp
        · exact hlife _ hmem
      · exact h.held id' t' row hheld
    · rw [grants, hm.now]
      exact h.bounded
  | inserted g keepPrevious before after grants next =>
    refine ⟨⟨?_, ?_, ?_, htasks, halloc.2⟩, onward_of_rows (by rw [grants]; rfl) halloc.1⟩
    · rw [grants, next]
      exact fun id g hg => Nat.lt_succ_of_lt (h.numbered id g hg)
    · rw [grants, next, hm.now]
      intro id' t' row hheld
      rcases hold_some hheld with ⟨rfl, -, rfl⟩ | ⟨-, hheld⟩
      · refine ⟨Nat.lt_succ_self _, g, rfl, hlife _ (by rw [before]; exact mem_singleton_self _),
          fun g₀ h₀ => ?_⟩
        exact absurd (h.numbered _ _ h₀) (Nat.lt_irrefl _)
      · obtain ⟨hlt, hrest⟩ := h.held id' t' row hheld
        exact ⟨Nat.lt_succ_of_lt hlt, hrest⟩
    · rw [grants, hm.now]
      exact h.bounded

theorem tasks_of_unlock (h : (w.unlock t).tasks t' = some task) : t' ≠ t ∧ w.tasks t' = some
    task := by
  have hupdate : update w.tasks t none t' = some task := h
  by_cases heq : t' = t
  · rw [heq, update_self] at hupdate
    cases hupdate
  · rw [update_of_ne heq] at hupdate
    exact ⟨heq, hupdate⟩

theorem Sound.rollback (h : Sound w) (t : TxnId) : Sound (w.rollback t) ∧ Onward w (w.rollback t) :=
  ⟨{ numbered := h.numbered
     held := fun id t' row hheld => h.held id t' row (rollback_some hheld).2
     bounded := h.bounded
     lifetimes := fun t' task ht => h.lifetimes t' task (tasks_of_unlock ht).2
     releasing := fun a t' row hheld => h.releasing a t' row (rollback_some hheld).2 },
    onward_of_rows rfl rfl⟩

theorem Sound.commit (h : Sound w) (t : TxnId) (note : Option Note) :
    Sound (w.commit t note) ∧ Onward w (w.commit t note) := by
  have honward : Onward w (w.commit t note) := by
    refine ⟨fun id g hg => ?_, fun a row hrow hr => ?_⟩
    · by_cases hsame : w.grants.view t id = w.grants.rows id
      · exact ⟨g, hsame.trans hg, .refl g⟩
      · obtain ⟨-, g', hsome, -, hlater⟩ := h.held id t _ (held_of_view hsame)
        exact ⟨g', hsome, hlater g hg⟩
    · by_cases hsame : w.allocations.view t a = w.allocations.rows a
      · exact ⟨row, hsame.trans hrow, hr⟩
      · exact h.releasing a t _ (held_of_view hsame)
  refine ⟨{
    numbered := fun id g hg => (h.view hg).1
    held := fun id t' row hheld => ?_
    bounded := fun id g hg => (h.view hg).2.1
    lifetimes := fun t' task ht => h.lifetimes t' task (tasks_of_unlock ht).2
    releasing := fun a t' row hheld => h.releasing a t' row (rollback_some hheld).2 }, honward⟩
  obtain ⟨hne, hheld'⟩ := rollback_some hheld
  obtain ⟨hlt, g, hsome, hexp, hlater⟩ := h.held id t' row hheld'
  refine ⟨hlt, g, hsome, hexp, fun g₀ h₀ => hlater g₀ ?_⟩
  have hview : w.grants.view t id = w.grants.rows id := view_other hheld' hne
  exact hview.symm.trans h₀

variable {op : Op} {note : Option Note} {task₁ : Task}

section Steps

variable {hashBearer : Token → Hash} {action : Action} {ok : World → Action → Prop}

theorem issueRow_spec {args : Issue} {row : Grant} (h : w.issueRow hashBearer args = some row) :
    row.key = args.agentSessionId.map (fun s => ⟨s, args.aliasName, args.channel.getD .mcp⟩) ∧
      row.expiresAt ≤ w.now + MAX_GRANT_TTL_SECONDS * 1000 := by
  unfold World.issueRow at h
  split at h
  · cases h
  · split at h
    · cases h
    · rename_i binding hfind
      split at h
      · cases h
        have halias : binding.aliasName = args.aliasName := by
          simpa using List.find?_some hfind
        refine ⟨by simp only [Grant.key, halias], ?_⟩
        have hmin : min (args.ttlSeconds.getD 900) MAX_GRANT_TTL_SECONDS ≤ MAX_GRANT_TTL_SECONDS :=
          Int.min_le_right _ _
        exact Int.add_le_add_left (Int.mul_le_mul_of_nonneg_right hmin (by decide)) _
      · cases h

theorem task_lifetimes (h : w.task hashBearer op = some task) :
    ∀ e ∈ task.lifetimes, e ≤ w.now + MAX_GRANT_TTL_SECONDS * 1000 := by
  cases op with
  | issue args =>
    obtain ⟨row, hrow, rfl⟩ := map_eq_some_iff.mp h
    intro e he
    rw [mem_singleton.mp he]
    exact (issueRow_spec hrow).2
  | extend s channel ttlSeconds =>
    cases h
    intro e he
    rw [mem_singleton.mp he]
    have hmin := Int.min_le_right (ttlSeconds.getD MAX_GRANT_TTL_SECONDS) MAX_GRANT_TTL_SECONDS
    exact Int.add_le_add_left (Int.mul_le_mul_of_nonneg_right hmin (by decide)) _
  | _ =>
    cases h
    exact fun e he => absurd he not_mem_nil

theorem sound_setTask (h : Sound w) (hop : w.task hashBearer op = some task) :
    Sound (w.setTask t task) := by
  refine { h with lifetimes := fun t' task' ht => ?_ }
  have hupdate : update w.tasks t (some task) t' = some task' := ht
  by_cases heq : t' = t
  · rw [heq, update_self] at hupdate
    cases hupdate
    exact task_lifetimes hop
  · rw [update_of_ne heq] at hupdate
    exact h.lifetimes t' task' hupdate

/-- **Every step keeps the rows sound, and lets grants and allocations only get older.** -/
theorem sound_step (h : Sound w) (hs : step hashBearer w action = some w') :
    Sound w' ∧ Onward w w' := by
  cases action with
  | tick ms =>
    cases hs
    have hle : ∀ e : Time, e ≤ w.now + MAX_GRANT_TTL_SECONDS * 1000 →
        e ≤ w.now + ms + MAX_GRANT_TTL_SECONDS * 1000 := fun e he =>
      Int.le_trans he (Int.add_le_add_right (Int.le_add_of_nonneg_right (Int.natCast_nonneg ms))
        _)
    refine ⟨⟨h.numbered, fun id t row hheld => ?_, fun id g hg => hle _ (h.bounded id g hg),
      fun t task ht e he => hle _ (h.lifetimes t task ht e he), h.releasing⟩,
      onward_of_rows rfl rfl⟩
    obtain ⟨hlt, g, hsome, hexp, hlater⟩ := h.held id t row hheld
    exact ⟨hlt, g, hsome, hle _ hexp, hlater⟩
  | admitted a connections =>
    simp only [step] at hs
    split at hs
    · rename_i hnone
      cases hs
      refine ⟨{ h with },
        fun id g hg => ⟨g, hg, .refl g⟩, fun a' row hrow hr => ⟨row, ?_, hr⟩⟩
      have hne : a' ≠ a := by
        rintro rfl
        rw [hnone.1] at hrow
        cases hrow
      exact (update_of_ne hne _ _).trans hrow
    · cases hs
  | setTurn i row =>
    simp only [step] at hs
    split at hs
    · cases hs
      exact ⟨{ h with }, onward_of_rows rfl rfl⟩
    · cases hs
  | setSession s row | setAttempt i row =>
    cases hs
    exact ⟨{ h with }, onward_of_rows rfl rfl⟩
  | begin t op =>
    simp only [step] at hs
    split at hs
    · obtain ⟨task, hop, rfl⟩ := map_eq_some_iff.mp hs
      exact ⟨sound_setTask h hop, onward_of_rows rfl rfl⟩
    · cases hs
  | proceed t =>
    obtain ⟨task, htask, hs⟩ := bind_eq_some_iff.mp hs
    rcases proceed_cases hs with rfl | ⟨note, -, rfl⟩ | ⟨task', hm⟩
    · exact h.rollback t
    · exact h.commit t note
    · exact h.moved htask hm
  | fail t =>
    obtain ⟨task, -, rfl⟩ := map_eq_some_iff.mp hs
    exact h.rollback t

theorem sound_start : Sound start where
  numbered _ _ h := by cases h
  held _ _ _ h := by cases h
  bounded _ _ h := by cases h
  lifetimes _ _ h := by cases h
  releasing _ _ _ h := by cases h

theorem sound_run (h : Reach (step hashBearer) ok start w) : Sound w :=
  h.invariant sound_start fun _ _ _ hi _ hs => (sound_step hi hs).1

theorem onward_run (h : Sound w) (hr : Reach (step hashBearer) ok w w') : Onward w w' := by
  have hboth : Sound w' ∧ Onward w w' := by
    refine Reach.invariant (I := fun s => Sound s ∧ Onward w s) hr ⟨h, .refl w⟩
      fun s e s' hi _ hs => ?_
    obtain ⟨hs', hon⟩ := sound_step hi.1 hs
    exact ⟨hs', hi.2.trans hon⟩
  exact hboth.2

theorem validate_spec {token : Token} (h : w.validate hashBearer token = some (id, g)) :
    w.grants.rows id = some g ∧ g.revoked = false ∧ w.active g.allocationId = true := by
  obtain ⟨id', -, hsome⟩ := exists_of_findSome?_eq_some h
  split at hsome
  · rename_i row hrow
    split at hsome
    · rename_i hvalid
      obtain ⟨rfl, rfl⟩ := Prod.mk.inj (some.inj hsome)
      exact ⟨hrow, hvalid.2.1, hvalid.2.2.2⟩
    · cases hsome
  · cases hsome

theorem active_spec {a : AllocationId} (h : w.active a = true) :
    ∃ row, w.allocations.rows a = some row ∧ row.status = .active := by
  unfold World.active at h
  cases hrow : w.allocations.rows a with
  | none =>
    rw [hrow] at h
    cases h
  | some row =>
    rw [hrow] at h
    exact ⟨row, rfl, of_decide_eq_true h⟩

/-- **Whatever happens between two states, what ended in the first does not live in the second.** -/
theorem ends_of_reach (h : Sound w)
    (hr : Reach (step hashBearer) ok w w') : Ends hashBearer w w' := by
  have honward := onward_run h hr
  have hsound : Sound w' := hr.invariant h fun _ _ _ hi _ hs => (sound_step hi hs).1
  refine ⟨fun token id g hv => ?_, fun id g hg hrev token g' hv => ?_,
    fun a row hrow hrel token id g hv hid => ?_, hsound.bounded⟩
  · obtain ⟨hrow, hrev, hactive⟩ := validate_spec hv
    exact ⟨hrow, hrev, active_spec hactive⟩
  · obtain ⟨hrow, hlive, -⟩ := validate_spec hv
    obtain ⟨g₁, h₁, hlater⟩ := honward.grants id g hg
    cases h₁.symm.trans hrow
    rw [hlater.revoked hrev] at hlive
    cases hlive
  · obtain ⟨-, -, hactive⟩ := validate_spec hv
    rw [hid] at hactive
    obtain ⟨row₁, h₁, hact⟩ := active_spec hactive
    obtain ⟨row₂, h₂, hrel₂⟩ := honward.released a row hrow hrel
    cases h₁.symm.trans h₂
    rw [hrel₂] at hact
    cases hact

end Steps

/-! ## One live grant -/

def Note.grant : Note → GrantId
  | .opened id | .closed id | .lapsed id => id

/-- A transaction sees no row outside `ids` that an update is about. -/
def Cleared (w : World) (t : TxnId) (u : Update) (ids : List GrantId) : Prop :=
  ∀ id g, w.grants.view t id = some g → u.covers id g = true → id ∈ ids

/-- The grant that `revokeOthers` keeps. -/
def Keeps (w : World) (key : Key) (keep : GrantId) (unbound : Bool) : Prop :=
  ∃ g, w.grants.rows keep = some g ∧ g.key = some key ∧ g.modelTurn.isNone = unbound

/-- What a transaction has brought about where it stands. -/
def Obliged (w : World) (t : TxnId) : Task → Prop
  | .revokePrevious row key => row.key = some key
  | .revoking row key ids => row.key = some key ∧ Cleared w t (.previous key) ids
  | .insert row keepPrevious => keepPrevious = false →
      ∀ key, row.key = some key → Cleared w t (.previous key) []
  | .inserted row keepPrevious id =>
    w.grants.held id = some (t, some row) ∧ w.grants.rows id = none ∧
    (∀ id' g, w.grants.rows id' = some g → g.key.isSome → g.key = row.key → id' < id) ∧
    (keepPrevious = false → ∀ key, row.key = some key → Cleared w t (.previous key) [id])
  | .shareKept key keep _ => Keeps w key keep false
  | .revokeOlder key keep unbound => Keeps w key keep unbound
  | .revokingOlder key keep unbound ids =>
    Keeps w key keep unbound ∧ Cleared w t (.older key keep unbound) ids
  | .kept key (some (.closed keep)) =>
    ∃ unbound, Keeps w key keep unbound ∧ Cleared w t (.older key keep unbound) []
  | .kept key (some (.lapsed keep)) => Keeps w key keep false
  | .kept _ (some (.opened _)) => False
  | _ => True

/-- What holds where the operations of one session, alias and channel follow each other. -/
structure Alone (w : World) : Prop where
  sound : Sound w
  distinct : ∀ t t' task task' key, w.tasks t = some task → w.tasks t' = some task' →
    task.key = some key → task'.key = some key → t = t'
  news : ∀ id t g, w.grants.held id = some (t, some g) → w.grants.rows id = none →
    ∃ keepPrevious, w.tasks t = some (.inserted g keepPrevious id)
  noted : ∀ note ∈ w.notes, ∃ g, w.grants.rows note.grant = some g
  obliged : ∀ t task, w.tasks t = some task → Obliged w t task
  one : w.OneLive

/-- What a transaction brought about depends on the committed rows and on what it sees. -/
theorem Obliged.frame (h : Obliged w t task)
    (hkeep : ∀ id g, w.grants.rows id = some g → ∃ g', w'.grants.rows id = some g' ∧ Later g g')
    (hheld : ∀ id row, w.grants.held id = some (t, row) → w'.grants.held id = some (t, row) ∧
      (w.grants.rows id = none → w'.grants.rows id = none))
    (hrows : ∀ id g key, w'.grants.rows id = some g → g.key = some key → task.key = some key →
      ∃ g₀, w.grants.rows id = some g₀ ∧ g₀.key = g.key)
    (hview : ∀ id g key, w'.grants.view t id = some g → g.key = some key → task.key = some key →
      ∃ g₀, w.grants.view t id = some g₀ ∧ Later g₀ g) : Obliged w' t task := by
  have hclear : ∀ u ids key, (∀ id g, u.covers id g = true → g.key = some key) →
      task.key = some key → Cleared w t u ids → Cleared w' t u ids := by
    intro u ids key hu hk hc id g hg hcov
    obtain ⟨g₀, h₀, hlater⟩ := hview id g key hg (hu id g hcov) hk
    exact hc id g₀ h₀ (hlater.covers hcov)
  have hkeeps : ∀ key keep unbound, Keeps w key keep unbound → Keeps w' key keep unbound := by
    rintro key keep unbound ⟨g, hg, hk, hm⟩
    obtain ⟨g', hg', hlater⟩ := hkeep keep g hg
    exact ⟨g', hg', by rw [hlater.key, hk], by rw [hlater.modelTurn, hm]⟩
  cases task with
  | revokePrevious row key => exact h
  | revoking row key ids =>
    exact ⟨h.1, hclear _ ids key (fun _ _ => covers_key) h.1 h.2⟩
  | insert row keepPrevious =>
    exact fun hk key hkey => hclear _ [] key (fun _ _ => covers_key) hkey (h hk key hkey)
  | inserted row keepPrevious id =>
    obtain ⟨hmine, hnone, hlast, hcleared⟩ := h
    obtain ⟨hmine', hnone'⟩ := hheld id _ hmine
    refine ⟨hmine', hnone' hnone, fun id' g hg hsome hk => ?_, fun hkp key hkey =>
      hclear _ [id] key (fun _ _ => covers_key) hkey (hcleared hkp key hkey)⟩
    obtain ⟨key, hkey⟩ := isSome_iff_exists.mp hsome
    obtain ⟨g₀, h₀, hsame⟩ := hrows id' g key hg hkey (by rw [Task.key, ← hk, hkey])
    exact hlast id' g₀ h₀ (by rw [hsame, hkey]; rfl) (by rw [hsame, hk])
  | shareKept key keep fence => exact hkeeps key keep false h
  | revokeOlder key keep unbound => exact hkeeps key keep unbound h
  | revokingOlder key keep unbound ids =>
    exact ⟨hkeeps key keep unbound h.1, hclear _ ids key (fun _ _ => older_key) rfl h.2⟩
  | kept key note =>
    cases note with
    | none => trivial
    | some note =>
      cases note with
      | opened id => exact h
      | closed keep =>
        obtain ⟨unbound, hk, hc⟩ := h
        exact ⟨unbound, hkeeps key keep unbound hk,
          hclear _ [] key (fun _ _ => older_key) rfl hc⟩
      | lapsed keep => exact hkeeps key keep false h
  | _ => trivial

theorem tasks_of_update (h : update w.tasks t (some task) t' = some task₁) :
    t' = t ∧ task₁ = task ∨ t' ≠ t ∧ w.tasks t' = some task₁ := by
  by_cases heq : t' = t
  · rw [heq, update_self] at h
    exact .inl ⟨heq, (some.inj h).symm⟩
  · rw [update_of_ne heq] at h
    exact .inr ⟨heq, h⟩

/-- Another transaction's statement leaves what a transaction brought about. -/
theorem Obliged.moved (h : Obliged w t' task₁) (hs : Sound w) (hne : t' ≠ t)
    (hm : Moved w t task task' w') : Obliged w' t' task₁ := by
  have hother : ∀ id row, w.grants.free t id = true → (w.grants.hold t id row).view t' =
    w.grants.view t' ∧
      ∀ id' row', w.grants.held id' = some (t', row') →
        (w.grants.hold t id row).held id' = some (t', row') := by
    intro id row hfree
    refine ⟨funext fun id' => hold_view_other hfree hne, fun id' row' hheld => ?_⟩
    have hid : id' ≠ id := by
      rintro rfl
      exact hne (eq_of_free hfree hheld)
    rw [hold_held_of_ne hid, hheld]
  have hgrants : w'.grants.rows = w.grants.rows ∧ w'.grants.view t' = w.grants.view t' ∧
      ∀ id row, w.grants.held id = some (t', row) → w'.grants.held id = some (t', row) := by
    cases hm.touched with
    | same grants next => rw [grants]; exact ⟨rfl, rfl, fun _ _ hh => hh⟩
    | updated u id g view free grants next lifetime =>
      rw [grants]
      exact ⟨rfl, (hother id _ free).1, (hother id _ free).2⟩
    | inserted g keepPrevious before after grants next =>
      rw [grants]
      have hfree : w.grants.free t w.next = true := by
        rw [Store.free]
        cases hheld : w.grants.held w.next with
        | none => rfl
        | some held => exact absurd (hs.held w.next held.1 held.2 hheld).1 (Nat.lt_irrefl _)
      exact ⟨rfl, (hother _ _ hfree).1, (hother _ _ hfree).2⟩
  obtain ⟨hrows, hview, hheld⟩ := hgrants
  refine h.frame (fun id g hg => ⟨g, by rw [hrows, hg], .refl g⟩)
    (fun id row hh => ⟨hheld id row hh, fun hn => by rw [hrows, hn]⟩)
    (fun id g _ hg _ _ => ⟨g, by rw [← hrows, hg], rfl⟩)
    (fun id g _ hg _ _ => ⟨g, by rw [← hview, hg], .refl g⟩)

/-- A row that a commit brings in was inserted by the transaction, and stands for its key. -/
theorem Alone.brought (h : Alone w) (hview : w.grants.view t id = some g)
    (hnone : w.grants.rows id = none) :
    ∃ keepPrevious, w.tasks t = some (.inserted g keepPrevious id) := by
  have hheld := held_of_view (s := w.grants) (t := t) (k := id) (by rw [hview, hnone]; exact nofun)
  rw [hview] at hheld
  exact h.news id t g hheld hnone

section

variable (h : Alone w) (hne : t' ≠ t) (htask : w.tasks t' = some task)
include h hne htask

/-- Where a transaction of a key sees a row of that key, another's commit shows nothing new. -/
theorem Alone.committed
    (hview : w.grants.view t id = some g) (hk : g.key = some key) (htk : task.key = some key) :
    ∃ g₀, w.grants.rows id = some g₀ ∧ Later g₀ g := by
  cases hrow : w.grants.rows id with
  | some g₀ => exact ⟨g₀, rfl, (h.sound.view hview).2.2 g₀ hrow⟩
  | none =>
    obtain ⟨keepPrevious, hins⟩ := h.brought hview hrow
    exact absurd (h.distinct t' t task _ key htask hins htk hk) hne

/-- Another transaction's commit leaves what a transaction brought about. -/
theorem Alone.obliged_commit (note : Option Note) : Obliged (w.commit t note) t' task := by
  refine (h.obliged t' task htask).frame ((h.sound.commit t note).2.grants) ?_ ?_ ?_
  · intro id row hheld
    refine ⟨rollback_held_other hheld hne, fun hnone => ?_⟩
    exact (view_other hheld hne).trans hnone
  · intro id g key hg hk htk
    obtain ⟨g₀, h₀, hlater⟩ := h.committed hne htask hg hk htk
    exact ⟨g₀, h₀, hlater.key.symm⟩
  · intro id g key hg hk htk
    by_cases hmine : ∃ row, w.grants.held id = some (t', row)
    · obtain ⟨row, hheld⟩ := hmine
      have hrow : row = some g := (commit_view_held hheld hne).symm.trans hg
      exact ⟨g, by rw [view_held hheld, hrow], .refl g⟩
    · have hfree : ∀ row, w.grants.held id ≠ some (t', row) := fun row hr => hmine ⟨row, hr⟩
      have hview : w.grants.view t id = some g := (commit_view_other hfree).symm.trans hg
      obtain ⟨g₀, h₀, hlater⟩ := h.committed hne htask hview hk htk
      refine ⟨g₀, ?_, hlater⟩
      cases hheld : w.grants.held id with
      | none => rw [view_none hheld, h₀]
      | some held =>
        have howner : held.1 ≠ t' := fun heq => hfree held.2 (by rw [hheld, ← heq])
        rw [view_other (show w.grants.held id = some (held.1, held.2) from hheld) howner, h₀]

/-- Another transaction's rollback leaves what a transaction brought about. -/
theorem Alone.obliged_rollback : Obliged (w.rollback t) t' task :=
  (h.obliged t' task htask).frame (fun _ g hg => ⟨g, hg, .refl g⟩)
    (fun _ _ hheld => ⟨rollback_held_other hheld hne, fun hnone => hnone⟩)
    (fun _ g _ hg _ _ => ⟨g, hg, rfl⟩)
    (fun id g _ hg _ _ => ⟨g, (rollback_view (s := w.grants) (k := id) hne).symm.trans hg, .refl g⟩)

end

theorem Alone.rollback (h : Alone w) (t : TxnId) : Alone (w.rollback t) where
  __ := h
  sound := (h.sound.rollback t).1
  distinct t₁ t₂ task₁ task₂ key h₁ h₂ :=
    h.distinct t₁ t₂ task₁ task₂ key (tasks_of_unlock h₁).2 (tasks_of_unlock h₂).2
  news id t' g hheld hnone := by
    obtain ⟨hne, hheld'⟩ := rollback_some hheld
    obtain ⟨keepPrevious, htask⟩ := h.news id t' g hheld' hnone
    exact ⟨keepPrevious, (update_of_ne hne _ _).trans htask⟩
  obliged t' task ht := by
    obtain ⟨hne, htask⟩ := tasks_of_unlock ht
    exact h.obliged_rollback hne htask

theorem last_kept {note : Note} (h : Last task (some note)) (hnew : ∀ id, note ≠ .opened id) :
    ∃ key, task = .kept key (some note) := by
  cases task with
  | kept key note' =>
    cases h
    exact ⟨key, rfl⟩
  | inserted row keepPrevious id =>
    cases keepPrevious with
    | false => generalize hn : some note = n at h; cases h; cases hn
    | true => generalize hn : some note = n at h; cases h; exact absurd (some.inj hn) (hnew id)
  | _ => nomatch h

/-- **A commit leaves an older grant beside a newer one only by design.** -/
theorem Alone.one_commit (h : Alone w) (htask : w.tasks t = some task)
    (hlast : Last task note) : (w.commit t note).OneLive := by
  intro id id' g g' hlt hg hg' hr hr' hsome hkey
  have hview : w.grants.view t id = some g := hg
  have hview' : w.grants.view t id' = some g' := hg'
  obtain ⟨key, hk⟩ := isSome_iff_exists.mp hsome
  have hk' : g'.key = some key := by rw [← hkey, hk]
  have hob := h.obliged t task htask
  have hnotes : (w.commit t note).notes = w.notes ++ note.toList := rfl
  cases hrow' : w.grants.rows id' with
  | none =>
    -- The newer one is this transaction's own.
    obtain ⟨keepPrevious, hins⟩ := h.brought hview' hrow'
    cases htask.symm.trans hins
    cases hlast with
    | inserted =>
      obtain ⟨-, -, -, hclear⟩ := hob
      cases keepPrevious with
      | false =>
        have hmem := hclear rfl key hk' id g hview (covers_previous hr hk)
        exact absurd (mem_singleton.mp hmem) (Nat.ne_of_lt hlt)
      | true =>
        left
        have hfresh : ∀ note' ∈ w.notes, note'.grant ≠ id' := by
          rintro note' hmem rfl
          obtain ⟨g₀, h₀⟩ := h.noted note' hmem
          rw [h₀] at hrow'
          cases hrow'
        refine ⟨?_, ?_, ?_⟩
        · rw [hnotes]
          exact mem_append_right _ mem_cons_self
        · rw [hnotes, mem_append]
          rintro (hmem | hmem)
          · exact hfresh _ hmem rfl
          · cases mem_singleton.mp hmem
        · rw [hnotes, mem_append]
          rintro (hmem | hmem)
          · exact hfresh _ hmem rfl
          · cases mem_singleton.mp hmem
  | some g₀' =>
    have hlater' := (h.sound.view hview').2.2 g₀' hrow'
    cases hrow : w.grants.rows id with
    | none =>
      -- The older one cannot be brought in after the newer one.
      obtain ⟨keepPrevious, hins⟩ := h.brought hview hrow
      cases htask.symm.trans hins
      obtain ⟨-, -, hfirst, -⟩ := hob
      have hle := hfirst id' g₀' hrow' (by rw [← hlater'.key, hk']; rfl)
        (by rw [← hlater'.key, hk', hk])
      exact absurd hle (Nat.lt_asymm hlt)
    | some g₀ =>
      have hlater := (h.sound.view hview).2.2 g₀ hrow
      have hone := h.one id id' g₀ g₀' hlt hrow hrow' (hlater.unrevoked hr)
        (hlater'.unrevoked hr') (by rw [← hlater.key, hk]; rfl)
        (by rw [← hlater.key, ← hlater'.key, hkey])
      rw [hlater.modelTurn, hlater'.modelTurn]
      rcases hone with ⟨hopen, hclosed, hlapsed⟩ | hbound | ⟨hturn, hlapsed⟩
      · -- The window of the newer one was open: it still is, or this commit closes it.
        by_cases hc : note = some (.closed id')
        · subst hc
          obtain ⟨key₁, rfl⟩ := last_kept hlast nofun
          obtain ⟨unbound, ⟨gk, hgk, hkk, hun⟩, hclear⟩ := hob
          cases hgk.symm.trans hrow'
          have hkeys : key₁ = key := some.inj (by rw [← hkk, ← hlater'.key, hk'])
          subst hkeys
          -- Every older grant that it may revoke is revoked, so this one is a turn's.
          have hnot : ¬ (Update.older key₁ id' unbound).covers id g = true := fun hcov =>
            absurd (hclear id g hview hcov) not_mem_nil
          rw [older_covers hr hk hlt] at hnot
          rw [hlater.modelTurn] at hnot
          cases unbound with
          | false => exact absurd (.inl rfl) hnot
          | true =>
            have hbound : g₀.modelTurn.isSome = true := by
              cases hm : g₀.modelTurn with
              | none => exact absurd (.inr (by rw [hm]; rfl)) hnot
              | some fence => rfl
            exact .inr (.inl ⟨hbound, isNone_iff_eq_none.mp hun⟩)
        · by_cases hl : note = some (.lapsed id')
          · subst hl
            obtain ⟨key₁, rfl⟩ := last_kept hlast nofun
            obtain ⟨gk, hgk, -, hun⟩ := hob
            cases hgk.symm.trans hrow'
            refine .inr (.inr ⟨?_, ?_⟩)
            · exact isNone_eq_false_iff.mp hun
            · rw [hnotes]
              exact mem_append_right _ mem_cons_self
          · refine .inl ⟨mem_append_left _ hopen, ?_, ?_⟩ <;> rw [hnotes, mem_append]
            · rintro (hmem | hmem)
              · exact hclosed hmem
              · exact hc (mem_toList.mp hmem)
            · rintro (hmem | hmem)
              · exact hlapsed hmem
              · exact hl (mem_toList.mp hmem)
      · exact .inr (.inl hbound)
      · exact .inr (.inr ⟨hturn, mem_append_left _ hlapsed⟩)

theorem Alone.commit (h : Alone w) (htask : w.tasks t = some task)
    (hlast : Last task note) : Alone (w.commit t note) where
  sound := (h.sound.commit t note).1
  distinct t₁ t₂ task₁ task₂ key h₁ h₂ :=
    h.distinct t₁ t₂ task₁ task₂ key (tasks_of_unlock h₁).2 (tasks_of_unlock h₂).2
  news id t' g hheld hnone := by
    obtain ⟨hne, hheld'⟩ := rollback_some hheld
    have hrow : w.grants.rows id = none := (view_other hheld' hne).symm.trans hnone
    obtain ⟨keepPrevious, hins⟩ := h.news id t' g hheld' hrow
    exact ⟨keepPrevious, (update_of_ne hne _ _).trans hins⟩
  noted note' hmem := by
    rcases mem_append.mp hmem with hmem | hmem
    · obtain ⟨g, hg⟩ := h.noted note' hmem
      obtain ⟨g', hg', -⟩ := (h.sound.commit t note).2.grants _ g hg
      exact ⟨g', hg'⟩
    · obtain rfl := mem_toList.mp hmem
      have hob := h.obliged t task htask
      cases note' with
      | opened id =>
        cases task with
        | inserted row keepPrevious id' =>
          cases keepPrevious with
          | false => nomatch hlast
          | true =>
            cases hlast
            exact ⟨row, view_held hob.1⟩
        | kept key note' =>
          cases hlast
          exact hob.elim
        | _ => nomatch hlast
      | closed id =>
        obtain ⟨key, rfl⟩ := last_kept hlast nofun
        obtain ⟨unbound, ⟨g, hg, -, -⟩, -⟩ := hob
        obtain ⟨g', hg', -⟩ := (h.sound.commit t (some (.closed id))).2.grants _ g hg
        exact ⟨g', hg'⟩
      | lapsed id =>
        obtain ⟨key, rfl⟩ := last_kept hlast nofun
        obtain ⟨g, hg, -, -⟩ := hob
        obtain ⟨g', hg', -⟩ := (h.sound.commit t (some (.lapsed id))).2.grants _ g hg
        exact ⟨g', hg'⟩
  obliged t' task' ht := by
    obtain ⟨hne, htask'⟩ := tasks_of_unlock ht
    exact h.obliged_commit hne htask' note
  one := h.one_commit htask hlast

/-! ## One statement of a transaction -/

theorem obliged_afterLocks (w : World) (t : TxnId) (row : Grant) (keepPrevious : Bool) :
    Obliged w t (afterLocks row keepPrevious) := by
  unfold afterLocks
  split
  · rename_i key hkey
    split
    · exact fun hfalse => absurd hfalse (by decide)
    · exact hkey
  · rename_i hnone
    intro _ key hkey
    rw [hnone] at hkey
    cases hkey

/-- An update takes all the rows that it is about. -/
theorem Sound.cleared_targets (h : Sound w) (hu : ∀ s channel expiresAt, u ≠ .extend s channel
    expiresAt) : Cleared w t u (w.targets t u) := by
  intro id g hview hcov
  refine mem_filter.mpr ⟨mem_range.mpr (h.view hview).1, ?_⟩
  rw [hview, any_some, hcov, Bool.true_and]
  cases u with
  | extend s channel expiresAt => exact absurd rfl (hu s channel expiresAt)
  | _ => rfl

/-- A row that an update set is none it is about. -/
theorem not_covers_set (hu : ∀ s channel expiresAt, u ≠ .extend s channel expiresAt) :
    u.covers id (u.set g) = false := by
  cases u with
  | extend s channel expiresAt => exact absurd rfl (hu s channel expiresAt)
  | _ => rfl

theorem cleared_updateRow {ids : List GrantId}
    (hu : ∀ s channel expiresAt, u ≠ .extend s channel expiresAt)
    (h : Cleared w t u (id :: ids)) (hs : w.updateRow t u id task' = some w') :
    Cleared w' t u ids := by
  obtain ⟨grants, hgrants, rfl⟩ := map_eq_some_iff.mp hs
  intro id' g hview hcov
  have hview' : grants.view t id' = some g := hview
  rcases update_cases hgrants with rfl | ⟨g₀, hg₀, -, -, rfl⟩
  · rcases mem_cons.mp (h id' g hview' hcov) with rfl | hmem
    · -- The row was not taken, so the update is not about it.
      rw [Store.update, hview'] at hgrants
      simp only [hcov, if_true] at hgrants
      split at hgrants
      · rename_i hfree
        have hheld := congrArg (fun s => s.held id') (some.inj hgrants)
        have hset : w.grants.held id' = some (t, some (u.set g)) := by
          rw [← hheld]
          exact hold_held_self
        rw [view_held hset] at hview'
        rw [← some.inj hview', not_covers_set hu] at hcov
        cases hcov
      · cases hgrants
    · exact hmem
  · by_cases hid : id' = id
    · subst hid
      rw [hold_view_self] at hview'
      rw [← some.inj hview', not_covers_set hu] at hcov
      cases hcov
    · rw [hold_view_of_ne hid] at hview'
      rcases mem_cons.mp (h id' g hview' hcov) with heq | hmem
      · exact absurd heq hid
      · exact hmem

/-- **What a statement brings about**, in the transaction's next task. -/
theorem Alone.obliged_next (h : Alone w) (htask : w.tasks t = some task)
    (hs : w.proceed t task = some w') (ht : w'.tasks t = some task') : Obliged w' t task' := by
  have hob := h.obliged t task htask
  have hended : ∀ {w₁ : World}, w₁.tasks = update w.tasks t none →
      w₁.tasks t ≠ some task' := fun heq => by
    rw [heq, update_self]
    exact nofun
  have hnext : ∀ {w₁ : World} {task₁ : Task},
      w₁.tasks = update w.tasks t (some task₁) → w₁.tasks t = some task' → task₁ = task' :=
    fun heq hsome => by
      rw [heq, update_self] at hsome
      exact some.inj hsome
  cases task with
  | shareAllocation row keepPrevious =>
    simp only [World.proceed] at hs
    split at hs
    · split at hs
      · cases hs
        obtain rfl := hnext rfl ht
        split
        · trivial
        · exact obliged_afterLocks _ t row keepPrevious
      · cases hs
        exact absurd ht (hended rfl)
    · cases hs
  | shareTurn row keepPrevious =>
    simp only [World.proceed] at hs
    split at hs
    · split at hs
      · cases hs
        obtain rfl := hnext rfl ht
        exact obliged_afterLocks _ t row keepPrevious
      · cases hs
        exact absurd ht (hended rfl)
    · cases hs
      exact absurd ht (hended rfl)
  | revokePrevious row key | revokeOlder key keep unbound =>
    cases hs
    obtain rfl := hnext rfl ht
    exact ⟨hob, h.sound.cleared_targets fun _ _ _ heq => by cases heq⟩
  | revoking row key ids =>
    cases ids with
    | nil =>
      cases hs
      obtain rfl := hnext rfl ht
      intro _ key' hkey
      cases hob.1.symm.trans hkey
      exact hob.2
    | cons id ids =>
      have hcleared := cleared_updateRow (fun _ _ _ heq => by cases heq) hob.2 hs
      obtain ⟨grants, -, rfl⟩ := map_eq_some_iff.mp hs
      obtain rfl := hnext rfl ht
      exact ⟨hob.1, hcleared⟩
  | insert row keepPrevious =>
    cases hs
    obtain rfl := hnext rfl ht
    have hnone : w.grants.rows w.next = none := by
      cases hrow : w.grants.rows w.next with
      | none => rfl
      | some g => exact absurd (h.sound.numbered _ g hrow) (Nat.lt_irrefl _)
    refine ⟨hold_held_self, hnone, fun id g hg _ _ => h.sound.numbered id g hg,
      fun hkeep key hkey id g hview hcov => ?_⟩
    by_cases hid : id = w.next
    · rw [hid]
      exact mem_singleton_self _
    · have hview' : w.grants.view t id = some g := (hold_view_of_ne hid).symm.trans hview
      exact absurd (hob hkeep key hkey id g hview' hcov) not_mem_nil
  | inserted row keepPrevious id | kept key note =>
    cases hs
    exact absurd ht (hended rfl)
  | selectKeep key keep =>
    simp only [World.proceed] at hs
    split at hs
    · rename_i g hview
      split at hs
      · rename_i hkey
        cases hs
        obtain rfl := hnext rfl ht
        have hkeeps : Keeps w key keep g.modelTurn.isNone := by
          cases hrow : w.grants.rows keep with
          | none =>
            obtain ⟨keepPrevious, hins⟩ := h.brought hview hrow
            cases htask.symm.trans hins
          | some g₀ =>
            have hlater := (h.sound.view hview).2.2 g₀ hrow
            exact ⟨g₀, hrow, by rw [← hlater.key, hkey.1], by rw [hlater.modelTurn]⟩
        cases hm : g.modelTurn with
        | none | some fence =>
          rw [hm] at hkeeps
          exact hkeeps
      · cases hs
        obtain rfl := hnext rfl ht
        trivial
    · cases hs
      obtain rfl := hnext rfl ht
      trivial
  | shareKept key keep fence =>
    simp only [World.proceed] at hs
    split at hs <;> obtain rfl := some.inj hs <;> obtain rfl := hnext rfl ht <;> exact hob
  | revokingOlder key keep unbound ids =>
    cases ids with
    | nil =>
      cases hs
      obtain rfl := hnext rfl ht
      exact ⟨unbound, hob⟩
    | cons id ids =>
      have hcleared := cleared_updateRow (fun _ _ _ heq => by cases heq) hob.2 hs
      obtain ⟨grants, hgrants, rfl⟩ := map_eq_some_iff.mp hs
      obtain rfl := hnext rfl ht
      refine ⟨?_, hcleared⟩
      rcases update_cases hgrants with rfl | ⟨g, -, -, -, rfl⟩ <;> exact hob.1
  | quiet statements =>
    suffices hquiet : ∃ rest, task' = .quiet rest by
      obtain ⟨rest, rfl⟩ := hquiet
      trivial
    cases statements with
    | nil =>
      cases hs
      exact absurd ht (hended rfl)
    | cons statement rest =>
      cases statement with
      | update u =>
        cases hs
        exact ⟨_, (hnext rfl ht).symm⟩
      | updating u ids =>
        cases ids with
        | nil =>
          cases hs
          exact ⟨_, (hnext rfl ht).symm⟩
        | cons id ids =>
          obtain ⟨grants, -, rfl⟩ := map_eq_some_iff.mp hs
          exact ⟨_, (hnext rfl ht).symm⟩
      | release a activeOnly =>
        simp only [World.proceed] at hs
        split at hs
        · split at hs
          · split at hs <;> obtain rfl := some.inj hs <;> exact ⟨_, (hnext rfl ht).symm⟩
          · cases hs
            exact ⟨_, (hnext rfl ht).symm⟩
        · cases hs

theorem commit_not_moved : ¬ Moved w t task task' (w.commit t note) := by
  intro hm
  have hnone : (w.commit t note).tasks t = none := update_self ..
  rw [hm.tasks, update_self] at hnone
  cases hnone

theorem Alone.moved (h : Alone w) (htask : w.tasks t = some task)
    (hs : w.proceed t task = some w') (hm : Moved w t task task' w') : Alone w' := by
  obtain ⟨hsound, honward⟩ := h.sound.moved htask hm
  have hrows : w'.grants.rows = w.grants.rows := by
    cases hm.touched with
    | same grants next => rw [grants]
    | updated u id g view free grants next lifetime => rw [grants]; rfl
    | inserted g keepPrevious before after grants next => rw [grants]; rfl
  refine ⟨hsound, fun t₁ t₂ task₁ task₂ key h₁ h₂ hk₁ hk₂ => ?_, fun id t' g hheld hnone => ?_,
    ?_, fun t' task₁ ht => ?_, ?_⟩
  · rw [hm.tasks] at h₁ h₂
    rcases tasks_of_update h₁ with ⟨rfl, rfl⟩ | ⟨-, hold₁⟩ <;>
      rcases tasks_of_update h₂ with ⟨rfl, rfl⟩ | ⟨-, hold₂⟩
    · rfl
    · exact h.distinct _ _ _ _ key htask hold₂ (by rw [← hm.key, hk₁]) hk₂
    · exact h.distinct _ _ _ _ key hold₁ htask hk₁ (by rw [← hm.key, hk₂])
    · exact h.distinct _ _ _ _ key hold₁ hold₂ hk₁ hk₂
  · rw [hrows] at hnone
    rw [hm.tasks]
    -- What was inserted before was inserted by another transaction, for this one goes on.
    have hold : w.grants.held id = some (t', some g) → ∃ keepPrevious,
        update w.tasks t (some task') t' = some (.inserted g keepPrevious id) := by
      intro hheld
      obtain ⟨keepPrevious, hins⟩ := h.news id t' g hheld hnone
      have hne : t' ≠ t := by
        rintro rfl
        cases htask.symm.trans hins
        cases hs
        exact commit_not_moved hm
      exact ⟨keepPrevious, (update_of_ne hne _ _).trans hins⟩
    cases hm.touched with
    | same grants next =>
      rw [grants] at hheld
      exact hold hheld
    | updated u id' g' view free grants next lifetime =>
      rw [grants] at hheld
      rcases hold_some hheld with ⟨rfl, rfl, -⟩ | ⟨-, hheld⟩
      · obtain ⟨keepPrevious, hins⟩ := h.brought view hnone
        cases htask.symm.trans hins
        cases hs
        exact (commit_not_moved hm).elim
      · exact hold hheld
    | inserted g' keepPrevious before after grants next =>
      rw [grants] at hheld
      rcases hold_some hheld with ⟨rfl, rfl, hsome⟩ | ⟨-, hheld⟩
      · rw [after, some.inj hsome]
        exact ⟨keepPrevious, update_self ..⟩
      · exact hold hheld
  · rw [hm.notes, hrows]
    exact h.noted
  · rcases tasks_of_update (hm.tasks ▸ ht) with ⟨rfl, rfl⟩ | ⟨hne, ht'⟩
    · exact h.obliged_next htask hs (by rw [hm.tasks, update_self])
    · exact (h.obliged t' task₁ ht').moved h.sound hne hm
  · intro id id' g g' hlt hg hg' hr hr' hsome hkey
    rw [hrows] at hg hg'
    have hone := h.one id id' g g' hlt hg hg' hr hr' hsome hkey
    unfold World.Open at hone ⊢
    rwa [hm.notes]

section Runs

variable {hashBearer : Token → Hash} {action : Action}

/-- A transaction begins with nothing brought about. -/
theorem obliged_task (h : w.task hashBearer op = some task) : Obliged w' t task := by
  cases op with
  | issue args =>
    obtain ⟨row, -, rfl⟩ := map_eq_some_iff.mp h
    trivial
  | _ =>
    cases h
    trivial

/-- Where `Apart` holds, no other transaction is about the key of one that begins. -/
theorem apart_task (hok : Apart w (.begin t op)) (h : w.task hashBearer op = some task)
    (hkey : task.key = some key) (ht : w.tasks t' = some task') : task'.key ≠ some key := by
  cases op with
  | issue args =>
    obtain ⟨row, hrow, rfl⟩ := map_eq_some_iff.mp h
    have hrowKey : row.key = some key := hkey
    rw [(issueRow_spec hrow).1] at hrowKey
    obtain ⟨s, hs, rfl⟩ := map_eq_some_iff.mp hrowKey
    exact hok s hs t' task' ht
  | revokeOthers key' keepId =>
    cases h
    cases hkey
    exact hok t' task' ht
  | _ =>
    cases h
    cases hkey

/-- A step that leaves grants, transactions and notes as they are. -/
theorem Alone.same (h : Alone w) (hsound : Sound w') (hg : w'.grants = w.grants)
    (ht : w'.tasks = w.tasks) (hn : w'.notes = w.notes) : Alone w' where
  sound := hsound
  distinct := by rw [ht]; exact h.distinct
  news := by rw [hg, ht]; exact h.news
  noted := by rw [hg, hn]; exact h.noted
  obliged t task htask := by
    rw [ht] at htask
    exact (h.obliged t task htask).frame (fun id g hrow => ⟨g, by rw [hg, hrow], .refl g⟩)
      (fun id row hheld => ⟨by rw [hg, hheld], fun hnone => by rw [hg, hnone]⟩)
      (fun id g _ hrow _ _ => ⟨g, by rw [← hg, hrow], rfl⟩)
      (fun id g _ hview _ _ => ⟨g, by rw [← hg, hview], .refl g⟩)
  one := by
    intro id id' g g' hlt hrow hrow' hr hr' hsome hkey
    rw [hg] at hrow hrow'
    have hone := h.one id id' g g' hlt hrow hrow' hr hr' hsome hkey
    unfold World.Open at hone ⊢
    rwa [hn]

theorem Alone.begin (h : Alone w) (hnone : w.tasks t = none) (hok : Apart w (.begin t op))
    (hop : w.task hashBearer op = some task) : Alone (w.setTask t task) := by
  refine ⟨sound_setTask h.sound hop, fun t₁ t₂ task₁ task₂ key h₁ h₂ hk₁ hk₂ => ?_,
    fun id t' g hheld hrow => ?_, h.noted, fun t' task₁ ht => ?_, h.one⟩
  · rcases tasks_of_update h₁ with ⟨rfl, rfl⟩ | ⟨-, hold₁⟩ <;>
      rcases tasks_of_update h₂ with ⟨rfl, rfl⟩ | ⟨-, hold₂⟩
    · rfl
    · exact absurd hk₂ (apart_task hok hop hk₁ hold₂)
    · exact absurd hk₁ (apart_task hok hop hk₂ hold₁)
    · exact h.distinct _ _ _ _ key hold₁ hold₂ hk₁ hk₂
  · obtain ⟨keepPrevious, hins⟩ := h.news id t' g hheld hrow
    have hne : t' ≠ t := by
      rintro rfl
      rw [hnone] at hins
      cases hins
    exact ⟨keepPrevious, (update_of_ne hne _ _).trans hins⟩
  · rcases tasks_of_update ht with ⟨rfl, rfl⟩ | ⟨-, hold⟩
    · exact obliged_task hop
    · exact (h.obliged t' task₁ hold).frame (fun _ g hrow => ⟨g, hrow, .refl g⟩)
        (fun _ _ hheld => ⟨hheld, fun hn => hn⟩) (fun _ g _ hrow _ _ => ⟨g, hrow, rfl⟩)
        (fun _ g _ hview _ _ => ⟨g, hview, .refl g⟩)

theorem alone_step (h : Alone w) (hok : Apart w action) (hs : step hashBearer w action = some w') :
    Alone w' := by
  have hsound := (sound_step h.sound hs).1
  cases action with
  | tick ms | setSession s row | setAttempt i row =>
    cases hs
    exact h.same hsound rfl rfl rfl
  | admitted a connections | setTurn i row =>
    simp only [step] at hs
    split at hs
    · cases hs
      exact h.same hsound rfl rfl rfl
    · cases hs
  | begin t op =>
    simp only [step] at hs
    split at hs
    · rename_i hnone
      obtain ⟨task, hop, rfl⟩ := map_eq_some_iff.mp hs
      exact h.begin hnone hok hop
    · cases hs
  | proceed t =>
    obtain ⟨task, htask, hs⟩ := bind_eq_some_iff.mp hs
    rcases proceed_cases hs with rfl | ⟨note, hlast, rfl⟩ | ⟨task', hm⟩
    · exact h.rollback t
    · exact h.commit htask hlast
    · exact h.moved htask hs hm
  | fail t =>
    obtain ⟨task, -, rfl⟩ := map_eq_some_iff.mp hs
    exact h.rollback t

theorem alone_start : Alone start where
  sound := sound_start
  distinct _ _ _ _ _ h := by cases h
  news _ _ _ h := by cases h
  noted _ h := by cases h
  obliged _ _ h := by cases h
  one _ _ _ _ _ h := by cases h

theorem alone_run (h : Reach (step hashBearer) Apart start w) : Alone w :=
  h.invariant alone_start fun _ _ _ => alone_step

/-- **Grants die with what they were issued for.** From any state on, what was revoked or whose
allocation was released validates no more, and no grant outlives the longest lifetime; and where
issues and `revokeOthers` of one session, alias and channel follow each other, an older grant lives
beside a newer one only by design. -/
theorem grants_end (h : Reach (step hashBearer) anyEvent start w)
    (h' : Reach (step hashBearer) anyEvent w w') :
    Ends hashBearer w w' ∧ (Reach (step hashBearer) Apart start w' → w'.OneLive) :=
  ⟨ends_of_reach (sound_run h) h', fun hapart => (alone_run hapart).one⟩

end Runs

/-! ## A turn's grant beside an unbound one -/

/-- A grant of the first session's sandbox, published with `keepPrevious`. -/
def sandboxIssue (modelTurn : Option ModelGrantFence) (token : Token) : Op :=
  .issue {
    allocationId := 0
    agentSessionId := some 0
    aliasName := 0
    ttlSeconds := some 3600
    channel := some .sandbox
    keepPrevious := true
    modelTurn
    token }

def sandboxKey : Key := ⟨0, 0, .sandbox⟩

/-- A turn runs and its grants are published. -/
def turnPublished : List Action :=
  [.admitted 0 [⟨0, 0, []⟩], .setSession 0 (some ⟨some 0, true⟩),
    .setTurn 0 (some ⟨0, some 0, some 0, 600000, false, .running⟩),
    .setAttempt 0 (some ⟨0, 0, true⟩), .begin 0 (sandboxIssue (some ⟨0, 0, 0⟩) 0),
    .proceed 0, .proceed 0, .proceed 0, .proceed 0, .begin 1 (.revokeOthers sandboxKey 0),
    .proceed 1, .proceed 1, .proceed 1, .proceed 1, .proceed 1]

/-- Then the workspace is prepared outside a turn. -/
def workspacePublished : List Action :=
  [.begin 2 (sandboxIssue none 1), .proceed 2, .proceed 2, .proceed 2,
    .begin 3 (.revokeOthers sandboxKey 1), .proceed 3, .proceed 3, .proceed 3, .proceed 3]

/-- What is seen of a state: which grants two bearers validate as, and the notes. -/
def World.shows (w : World) : Option (GrantId × Option Key) × Option (GrantId × Option Key) ×
    List Note :=
  ((w.validate (fun token => token) 0).map fun v => (v.1, v.2.key),
    (w.validate (fun token => token) 1).map fun v => (v.1, v.2.key), w.notes)

/-- A turn's grant, after it was published. -/
theorem grants_end_published : ∃ w, w.shows = (some (0, some sandboxKey), none,
      [.opened 0, .closed 0]) ∧ Ends (fun token => token) w w ∧
        (Reach (step fun token => token) Apart start w → w.OneLive) := by
  have hrun : (exec (step fun token => token) start turnPublished).map World.shows =
      some (some (0, some sandboxKey), none, [.opened 0, .closed 0]) := by decide +kernel
  obtain ⟨w, hw, hshows⟩ := map_eq_some_iff.mp hrun
  exact ⟨w, hshows, grants_end (reach_of_exec hw) .init⟩

/-- **Two grants of one session, alias and channel live with no window open**: an unbound
publication does not revoke a turn's grant. -/
theorem two_live : ¬∀ w, Reach (step fun token => token) anyEvent start w →
    (∀ id, ¬ w.Open id) → ∀ token token' v v', w.validate (fun token => token) token = some v →
      w.validate (fun token => token) token' = some v' →
      v.2.key.isSome → v.2.key = v'.2.key → v.1 = v'.1 := by
  intro hclaim
  have hrun : (exec (step fun token => token) start (turnPublished ++ workspacePublished)).map
      World.shows = some (some (0, some sandboxKey), some (1, some sandboxKey),
        [.opened 0, .closed 0, .opened 1, .closed 1]) := by decide +kernel
  obtain ⟨w, hw, hshows⟩ := map_eq_some_iff.mp hrun
  obtain ⟨hfirst, hrest⟩ := Prod.mk.inj hshows
  obtain ⟨hsecond, hnotes⟩ := Prod.mk.inj hrest
  obtain ⟨v, hv, hv₁⟩ := map_eq_some_iff.mp hfirst
  obtain ⟨v', hv', hv₂⟩ := map_eq_some_iff.mp hsecond
  obtain ⟨hid, hkey⟩ := Prod.mk.inj hv₁
  obtain ⟨hid', hkey'⟩ := Prod.mk.inj hv₂
  have hclosed : ∀ id, ¬ w.Open id := by
    rintro id ⟨hopen, hnot, -⟩
    rw [hnotes] at hopen hnot
    simp only [mem_cons, not_mem_nil, or_false, Note.opened.injEq, reduceCtorEq, false_or] at hopen
    rcases hopen with rfl | rfl <;> exact hnot (by decide)
  have hsame := hclaim w (reach_of_exec hw) hclosed 0 1 v v' hv hv' (by rw [hkey]; rfl)
    (by rw [hkey, hkey'])
  rw [hid, hid'] at hsame
  cases hsame

/-- **A bearer keeps the authority it was issued with**: when it validates as a grant again, only
the time that the grant lasts until may have changed. -/
theorem authority_kept {w w' : World} (h : Reach (step hashBearer) anyEvent start w)
    (h' : Reach (step hashBearer) anyEvent w w') : ∀ token token' id g g',
      w.validate hashBearer token = some (id, g) → w'.validate hashBearer token' = some (id, g') →
        g' = { g with expiresAt := g'.expiresAt } := by
  intro token token' id g g' hv hv'
  obtain ⟨hrow, hlive, -⟩ := validate_spec hv
  obtain ⟨hrow', hlive', -⟩ := validate_spec hv'
  obtain ⟨g'', hrow'', hlater⟩ := (onward_run (sound_run h) h').grants id g hrow
  cases hrow'.symm.trans hrow''
  have hsame := hlater.same
  rwa [hlive', ← hlive] at hsame

/-- A turn's grant, after the workspace was prepared. -/
theorem authority_kept_published : ∃ w w' : World, w.shows.1 = some (0, some sandboxKey) ∧
    w'.shows.1 = some (0, some sandboxKey) ∧ ∀ token token' id g g',
      w.validate (fun token => token) token = some (id, g) →
        w'.validate (fun token => token) token' = some (id, g') →
          g' = { g with expiresAt := g'.expiresAt } := by
  have hrun : (exec (step fun token => token) start turnPublished).bind (fun w =>
      (exec (step fun token => token) w workspacePublished).map fun w' =>
        (w.shows.1, w'.shows.1)) =
      some (some (0, some sandboxKey), some (0, some sandboxKey)) := by decide +kernel
  obtain ⟨w, hw, hrest⟩ := bind_eq_some_iff.mp hrun
  obtain ⟨w', hw', hshows⟩ := map_eq_some_iff.mp hrest
  obtain ⟨hfirst, hsecond⟩ := Prod.mk.inj hshows
  exact ⟨w, w', hfirst, hsecond, authority_kept (reach_of_exec hw) (reach_of_exec hw')⟩

end Catamorphic.Access.ConnectionGrants
