import Catamorphic.Documents.StoreRuns

/-!
# A document keeps its bytes

A version's bytes are found where the write that recorded it put them, whoever writes, deletes or
edits the file meanwhile. They are the bytes that were written, but for content that is stored as
text and starts with a byte-order mark.
-/

namespace Catamorphic.Documents

open Runs Function List Option

variable {host : Host} {w w' : World} {o o' : OpId} {op op' : Op} {content : Bytes}

/-! ## What is stored stays -/

/-- A transaction's blob is there, under the key that no version has yet. -/
structure Work.Locked (host : Host) (w : World) (o : OpId) (work : Work) (row : Row) : Prop where
  mine : w.lock = some o
  current : work.current = some row
  holds : Holds w row
  put : work.stage ≠ .check → work.stage ≠ .put → ∀ content contentType,
    work.request.change = .write content contentType →
      (textOf content contentType).isNone → host.blobStore = true →
        w.blobs (row.id, row.entry.version + 1) = some content

/-- Versions have keys of their own, and a transaction beyond its lock holds the row. -/
structure Sound (host : Host) (w : World) : Prop where
  keys : ∀ v ∈ w.versions, ∀ key, v.entry.stored.blobKey = some key →
    ∃ row, w.row = some row ∧ key = (row.id, v.entry.version) ∧ v.entry.version ≤ row.entry.version
  locked : ∀ o op work, w.ops o = some op → op.phase = .working work → work.stage ≠ .lock →
    ∃ row, work.Locked host w o row

/-- Versions stay, and so does what they say. -/
structure Grows (w w' : World) : Prop where
  versions : ∀ v ∈ w.versions, v ∈ w'.versions
  blobs : KeepsBlobs w w'

theorem Grows.refl (w : World) : Grows w w := ⟨fun _ hv => hv, fun _ _ _ _ => rfl⟩

theorem Grows.trans {w'' : World} (h : Grows w w') (h' : Grows w' w'') : Grows w w'' where
  versions v hv := h'.versions v (h.versions v hv)
  blobs v hv key hkey := (h'.blobs v (h.versions v hv) key hkey).trans (h.blobs v hv key hkey)

theorem Grows.bytesOf (h : Grows w w') {v : Version} (hv : v ∈ w.versions) :
    w'.bytesOf host v.entry.stored = w.bytesOf host v.entry.stored := by
  unfold World.bytesOf
  cases v.entry.stored.textContent with
  | some text => rfl
  | none =>
    cases v.entry.stored.bytes with
    | some bytes => rfl
    | none =>
      cases hkey : v.entry.stored.blobKey with
      | none => rfl
      | some key => simp only [h.blobs v hv key hkey]

/-- A step that leaves the tables alone. -/
structure Quiet (w : World) (o : OpId) (w' : World) : Prop where
  row : w'.row = w.row
  versions : w'.versions = w.versions
  blobs : w'.blobs = w.blobs
  ops : ∀ o', o' ≠ o → w'.ops o' = w.ops o'
  lock : ∀ o', o' ≠ o → w.lock = some o' → w'.lock = some o'

theorem Quiet.grows (h : Quiet w o w') : Grows w w' where
  versions v hv := h.versions ▸ hv
  blobs _ _ _ _ := by rw [h.blobs]

theorem Work.Locked.frame {work : Work} {row : Row} (h : work.Locked host w o row)
    (hlock : w'.lock = some o) (hrow : w'.row = w.row) (hblobs : w'.blobs = w.blobs) :
    work.Locked host w' o row where
  mine := hlock
  current := h.current
  holds := by
    unfold Holds
    rw [hrow]
    exact h.holds
  put := by
    rw [hblobs]
    exact h.put

theorem Sound.quiet (h : Sound host w) (hquiet : Quiet w o w')
    (hmine : ∀ op work, w'.ops o = some op → op.phase = .working work → work.stage ≠ .lock →
      ∃ row, work.Locked host w' o row) : Sound host w' where
  keys := by
    rw [hquiet.versions, hquiet.row]
    exact h.keys
  locked o' op work hop hphase hstage := by
    by_cases ho : o' = o
    · subst ho
      exact hmine op work hop hphase hstage
    · rw [hquiet.ops o' ho] at hop
      obtain ⟨row, hlocked⟩ := h.locked o' op work hop hphase hstage
      exact ⟨row, hlocked.frame (hquiet.lock o' ho hlocked.mine) hquiet.row hquiet.blobs⟩

/-! ## Steps -/

/-- Beyond its lock an operation is nowhere but in a transaction. -/
def Unlocked (phase : Phase) : Prop := ∀ work, phase = .working work → work.stage = .lock

theorem quiet_setPhase (phase : Phase) : Quiet w o (w.setPhase o op phase) :=
  ⟨rfl, rfl, rfl, fun _ ho => update_of_ne ho _ _, fun _ _ hlock => hlock⟩

theorem quiet_throw : Quiet w o (w.throw o op) where
  row := rfl
  versions := rfl
  blobs := rfl
  ops _ ho := update_of_ne ho _ _
  lock o' ho hlock := by
    have hne : w.lock ≠ some o := fun heq => ho (some.inj (hlock.symm.trans heq))
    simpa only [World.throw, if_neg hne] using hlock

section

variable (h : Sound host w)
include h

theorem Sound.setPhase {phase : Phase} (hphase : Unlocked phase) :
    Sound host (w.setPhase o op phase) := by
  refine h.quiet (quiet_setPhase phase) fun op' work hop hwork hstage => ?_
  cases (update_self o _ w.ops).symm.trans hop
  exact absurd (hphase work hwork) hstage

theorem Sound.throw : Sound host (w.throw o op) := by
  refine h.quiet quiet_throw fun op' work hop hwork _ => ?_
  cases (update_self o _ w.ops).symm.trans hop
  cases hwork

omit h in
theorem unlocked_afterRefresh (op : Op) : Unlocked (afterRefresh op) := by
  intro work hwork
  unfold afterRefresh at hwork
  split at hwork
  · exact (Phase.working.inj hwork) ▸ rfl
  · cases hwork

omit h in
/-- Folding the file in changes a phase, or throws. -/
theorem refresh_cases (w : World) (o : OpId) (op : Op) (phase : Phase)
    (hphase : ∀ work, phase ≠ .working work) :
    w.refresh host o op phase = w.throw o op ∨ w.refresh host o op phase = w ∨
      ∃ next, Unlocked next ∧ w.refresh host o op phase = w.setPhase o op next := by
  have hfold : ∀ change version, Unlocked (.working (foldOf change version)) :=
    fun change version work hwork => Phase.working.inj hwork ▸ rfl
  have hselect : ∀ stat, Unlocked (.select stat) := fun stat work hwork => nomatch hwork
  have hread : ∀ row, Unlocked (.readFile row) := fun row work hwork => nomatch hwork
  have hafter := unlocked_afterRefresh op
  cases phase with
  | stat =>
    simp only [World.refresh]
    split
    · exact .inr (.inr ⟨_, hselect _, rfl⟩)
    · exact .inr (.inr ⟨_, hafter, rfl⟩)
  | select stat =>
    cases stat with
    | absent =>
      rcases hrow : w.row with _ | row
      · simp only [World.refresh, hrow]
        exact .inr (.inr ⟨_, hafter, rfl⟩)
      · simp only [World.refresh, hrow]
        split
        · exact .inr (.inr ⟨_, hafter, rfl⟩)
        · exact .inr (.inr ⟨_, hfold _ _, rfl⟩)
    | file => exact .inr (.inr ⟨_, hread _, rfl⟩)
    | unfit => exact .inl rfl
  | readFile current =>
    rcases hfile : w.localFile with _ | bytes | _
    · simp only [World.refresh, hfile]
      exact .inl trivial
    · rcases current with _ | row
      · simp only [World.refresh, hfile]
        exact .inr (.inr ⟨_, hfold _ _, rfl⟩)
      · simp only [World.refresh, hfile]
        split
        · exact .inr (.inr ⟨_, hfold _ _, rfl⟩)
        · rcases w.bytesOf host row.entry.stored with _ | recorded
          · exact .inl rfl
          · dsimp only
            split
            · exact .inr (.inr ⟨_, hafter, rfl⟩)
            · exact .inr (.inr ⟨_, hfold _ _, rfl⟩)
    · simp only [World.refresh, hfile]
      exact .inl trivial
  | working work => exact absurd rfl (hphase work)
  | done | threw => exact .inr (.inl rfl)

/-- Two phases of one transaction, the second with the row that it holds. -/
theorem Sound.next {work : Work} {row : Row} (stage : Stage)
    (hlocked : ({ work with stage } : Work).Locked host w o row) :
    Sound host (w.setPhase o op (.working { work with stage })) := by
  refine h.quiet (quiet_setPhase _) fun op' work' hop hwork _ => ?_
  cases (update_self o _ w.ops).symm.trans hop
  obtain rfl := Phase.working.inj hwork
  exact ⟨row, hlocked.frame hlocked.mine rfl rfl⟩

omit h in
/-- What a transaction has put stays there to its end. -/
theorem Work.Locked.later {work : Work} {row : Row} {stage : Stage}
    (h : work.Locked host w o row) (hs : work.stage = stage)
    (hlate : stage ≠ .check ∧ stage ≠ .put) (next : Stage) :
    ({ work with stage := next } : Work).Locked host w o row where
  mine := h.mine
  current := h.current
  holds := h.holds
  put _ _ := h.put (by rw [hs]; exact hlate.1) (by rw [hs]; exact hlate.2)

/-- The file is no matter of what is stored. -/
theorem Sound.filed (localFile : LocalFile) (filed : List OpId)
    (replaced : List Bytes) : Sound host { w with localFile, filed, replaced } where
  keys := h.keys
  locked o op work hop hphase hstage := by
    obtain ⟨row, hlocked⟩ := h.locked o op work hop hphase hstage
    exact ⟨row, hlocked.frame hlocked.mine rfl rfl⟩

/-- **A blob is put under a key that no version has.** -/
theorem Sound.put {work : Work} {row : Row} {contentType : ContentType}
    (hrow : work.Locked host w o row) (hchange : work.request.change = .write content contentType) :
    let w' : World := { w.setPhase o op (.working { work with stage := .insert }) with
      blobs := update w.blobs (row.id, row.entry.version + 1) (some content) }
    Sound host w' ∧ Grows w w' := by
  intro w'
  have hkeeps : KeepsBlobs w w' := by
    intro v hv key hkey
    obtain ⟨row', hrow', rfl, hle⟩ := h.keys v hv key hkey
    refine update_of_ne (fun heq => ?_) _ _
    rcases hrow.holds with hsome | ⟨hnone, -⟩
    · cases hrow'.symm.trans hsome
      have hversion := (Prod.mk.inj heq).2
      omega
    · rw [hnone] at hrow'
      cases hrow'
  refine ⟨⟨h.keys, fun o' op' work' hop hphase hstage => ?_⟩, fun _ hv => hv, hkeeps⟩
  by_cases ho : o' = o
  · subst ho
    cases (update_self o' _ w.ops).symm.trans hop
    obtain rfl := Phase.working.inj hphase
    refine ⟨row, hrow.mine, hrow.current, hrow.holds, fun _ _ content' contentType' hwrite _ _ =>
      ?_⟩
    obtain ⟨rfl, -⟩ := Change.write.inj (hchange.symm.trans hwrite)
    exact update_self ..
  · -- nobody else holds the row
    have hop : w.ops o' = some op' := (update_of_ne ho _ w.ops) ▸ hop
    obtain ⟨_, hother⟩ := h.locked o' op' work' hop hphase hstage
    exact absurd (some.inj (hother.mine.symm.trans hrow.mine)) ho

theorem Sound.commit {work : Work} {row : Row} (hrow : work.Locked host w o row) :
    let w' : World := { w.setPhase o op (if work.fold then afterRefresh op else .done) with
      row := some { row with entry := work.request.entry host row }
      versions := w.versions ++ [work.version host row o]
      lock := none }
    Sound host w' ∧ Grows w w' := by
  intro w'
  have hversion : (work.request.entry host row).version = row.entry.version + 1 :=
    entry_version work.request row
  refine ⟨⟨fun v hv key hkey => ?_, fun o' op' work' hop hphase hstage => ?_⟩,
    fun v => mem_append_left _, fun _ _ _ _ => rfl⟩
  · refine ⟨_, rfl, ?_⟩
    rcases mem_append.mp hv with hv | hv
    · obtain ⟨row', hrow', rfl, hle⟩ := h.keys v hv key hkey
      rcases hrow.holds with hsome | ⟨hnone, -⟩
      · cases hrow'.symm.trans hsome
        refine ⟨rfl, ?_⟩
        dsimp only
        omega
      · rw [hnone] at hrow'
        cases hrow'
    · obtain rfl := mem_singleton.mp hv
      have hentry := entry_blobKey hkey
      refine ⟨?_, Nat.le_refl _⟩
      rw [hentry]
      exact congrArg (Prod.mk row.id) hversion.symm
  · by_cases ho : o' = o
    · subst ho
      cases (update_self o' _ w.ops).symm.trans hop
      split at hphase
      · exact absurd (unlocked_afterRefresh op work' hphase) hstage
      · cases hphase
    · have hop : w.ops o' = some op' := (update_of_ne ho _ w.ops) ▸ hop
      obtain ⟨_, hother⟩ := h.locked o' op' work' hop hphase hstage
      exact absurd (some.inj (hother.mine.symm.trans hrow.mine)) ho

theorem Sound.work (hop : w.ops o = some op) {work : Work}
    (hphase : op.phase = .working work) (hwork : w.work host o op work = some w') :
    Sound host w' ∧ Grows w w' := by
  have hlocked := h.locked o op work hop hphase
  unfold World.work at hwork
  rcases hs : work.stage with _ | _ | _ | _ | _ | _ | _ <;> simp only [hs] at hwork hlocked
  · -- the row is locked, as it is or as a placeholder
    have hlock : ∀ row nextId, w.lock = none → Holds w row →
        let w' : World := { w.setPhase o op
          (.working { work with stage := .check, current := some row }) with
            lock := some o, nextId }
        Sound host w' ∧ Grows w w' := by
      intro row nextId hnone hholds w'
      have hquiet : Quiet w o w' := ⟨rfl, rfl, rfl, fun _ ho => update_of_ne ho _ _,
        fun o' _ hlock => by rw [hnone] at hlock; cases hlock⟩
      refine ⟨h.quiet hquiet fun op' work' hop' hwork' _ => ?_, hquiet.grows⟩
      cases (update_self o _ w.ops).symm.trans hop'
      obtain rfl := Phase.working.inj hwork'
      exact ⟨row, rfl, rfl, hholds, absurd rfl⟩
    split at hwork
    · split at hwork
      · cases hwork
        exact ⟨h.throw, quiet_throw.grows⟩
      · split at hwork
        · next hnone =>
          split at hwork
          · next row hrow =>
            cases hwork
            exact hlock row w.nextId hnone (.inl hrow)
          · next hrow =>
            cases hwork
            exact hlock _ _ hnone (.inr ⟨hrow, rfl⟩)
        · cases hwork
    · split at hwork
      · next row hrow =>
        split at hwork
        · next hnone =>
          cases hwork
          exact hlock row w.nextId hnone (.inl hrow)
        · cases hwork
      · cases hwork
        exact ⟨h.throw, quiet_throw.grows⟩
  · obtain ⟨row, hrow⟩ := hlocked (by decide)
    split at hwork
    · cases hwork
    · split at hwork
      · cases hwork
        exact ⟨h.throw, quiet_throw.grows⟩
      · split at hwork
        · cases hwork
          exact ⟨h.next .put ⟨hrow.mine, hrow.current, hrow.holds, fun _ => absurd rfl⟩,
            (quiet_setPhase _).grows⟩
        · cases hwork
          exact ⟨h.throw, quiet_throw.grows⟩
  · obtain ⟨row, hrow⟩ := hlocked (by decide)
    split at hwork
    · next row' content contentType hcurrent hchange =>
      cases hrow.current.symm.trans hcurrent
      split at hwork
      · cases hwork
        exact h.put hrow hchange
      · next hinline =>
        cases hwork
        refine ⟨h.next .insert ⟨hrow.mine, hrow.current, hrow.holds, ?_⟩, (quiet_setPhase _).grows⟩
        intro _ _ content' contentType' hwrite htext hstore
        obtain ⟨rfl, rfl⟩ := Change.write.inj (hchange.symm.trans hwrite)
        exact absurd ⟨htext, hstore⟩ hinline
    · next hnot =>
      cases hwork
      refine ⟨h.next .insert ⟨hrow.mine, hrow.current, hrow.holds, ?_⟩, (quiet_setPhase _).grows⟩
      exact fun _ _ content contentType hwrite =>
        (hnot row content contentType hrow.current hwrite).elim
  · obtain ⟨row, hrow⟩ := hlocked (by decide)
    cases hwork
    exact ⟨h.next .update (hrow.later hs (by decide) .update), (quiet_setPhase _).grows⟩
  · obtain ⟨row, hrow⟩ := hlocked (by decide)
    cases hwork
    exact ⟨h.next .file (hrow.later hs (by decide) .file), (quiet_setPhase _).grows⟩
  · obtain ⟨row, hrow⟩ := hlocked (by decide)
    have hnext := @Sound.next host w o op h work row .commit (hrow.later hs (by decide) .commit)
    split at hwork
    · split at hwork
      · split at hwork
        · cases hwork
          exact ⟨hnext, (quiet_setPhase _).grows⟩
        · cases hwork
          exact ⟨hnext.filed _ _ _, fun _ hv => hv, fun _ _ _ _ => rfl⟩
      · cases hwork
        exact ⟨h.throw, quiet_throw.grows⟩
    · cases hwork
      exact ⟨hnext, (quiet_setPhase _).grows⟩
  · obtain ⟨row, hrow⟩ := hlocked (by decide)
    split at hwork
    · cases hwork
    · next row' hcurrent =>
      cases hrow.current.symm.trans hcurrent
      cases hwork
      exact h.commit hrow

theorem sound_step {action : Action} (hstep : step host w action = some w') :
    Sound host w' ∧ Grows w w' := by
  cases action with
  | begin o call =>
    rcases hop : w.ops o with _ | op
    · simp only [step, hop] at hstep
      cases hstep
      have hquiet : Quiet w o { w with ops := update w.ops o (some { call }) } :=
        ⟨rfl, rfl, rfl, fun _ ho => update_of_ne ho _ _, fun _ _ hlock => hlock⟩
      refine ⟨h.quiet hquiet fun op work hop hphase _ => ?_, hquiet.grows⟩
      cases (update_self o _ w.ops).symm.trans hop
      cases hphase
    · simp only [step, hop] at hstep
      cases hstep
  | proceed o =>
    rcases hop : w.ops o with _ | op
    · simp only [step, hop] at hstep
      cases hstep
    · have hrefresh : ∀ phase, (∀ work, phase ≠ .working work) →
          some (w.refresh host o op phase) = some w' → Sound host w' ∧ Grows w w' := by
        intro phase hphase heq
        rw [← some.inj heq]
        rcases @refresh_cases host w o op phase hphase with heq | heq | ⟨next, hnext, heq⟩
        · rw [heq]
          exact ⟨h.throw, quiet_throw.grows⟩
        · rw [heq]
          exact ⟨h, .refl w⟩
        · rw [heq]
          exact ⟨h.setPhase hnext, (quiet_setPhase next).grows⟩
      rcases hphase : op.phase with _ | stat | current | work | _ | _ <;>
        simp only [step, hop, hphase] at hstep
      · exact hrefresh .stat (fun _ h => by cases h) hstep
      · exact hrefresh (.select stat) (fun _ h => by cases h) hstep
      · exact hrefresh (.readFile current) (fun _ h => by cases h) hstep
      · exact h.work hop hphase hstep
      · cases hstep
      · cases hstep
  | fail o =>
    rcases hop : w.ops o with _ | op
    · simp only [step, hop] at hstep
      cases hstep
    · simp only [step, hop] at hstep
      split at hstep
      · cases hstep
      · cases hstep
        exact ⟨h.throw, quiet_throw.grows⟩
  | edit localFile =>
    cases hstep
    exact ⟨h.filed localFile w.filed w.replaced, fun _ hv => hv, fun _ _ _ _ => rfl⟩

end

theorem sound_start : Sound host start :=
  ⟨fun v hv => absurd hv not_mem_nil, fun o op work hop => by cases hop⟩

theorem sound_of_reach (h : Reach (step host) anyEvent start w) : Sound host w :=
  h.invariant sound_start fun _ _ _ hsound _ hstep => (sound_step hsound hstep).1

theorem grows_of_reach (hsound : Sound host w) (h : Reach (step host) anyEvent w w') :
    Grows w w' := by
  have hboth : Sound host w' ∧ Grows w w' :=
    h.invariant (I := fun later => Sound host later ∧ Grows w later) ⟨hsound, .refl w⟩
      fun _ _ _ hgrown _ hstep =>
        ⟨(sound_step hgrown.1 hstep).1, hgrown.2.trans (sound_step hgrown.1 hstep).2⟩
  exact hboth.2

/-! ## What is written is read -/

/-- The database takes it: no text that it stores holds NUL. -/
def Insertable (content : Bytes) (contentType : ContentType) : Prop :=
  ∀ text, textOf content contentType = some text → Char.ofNat 0 ∉ text

/-- **Bytes are kept**: a transaction that writes them, or folds them in, commits with a document and
a version that read as these bytes; the version reads so from then on, and the local file is not
recorded again while it holds them and the document is at that version. -/
def KeepsBytes (host : Host) (content : Bytes) (contentType : ContentType) : Prop :=
  ∀ w, Reach (step host) anyEvent start w → ∀ o op work, w.ops o = some op →
    op.phase = .working work → work.stage = .commit →
    work.request.change = .write content contentType → Insertable content contentType →
    ∀ w', step host w (.proceed o) = some w' →
      ∃ row v, w'.row = some row ∧ w'.bytesOf host row.entry.stored = some content ∧
        v ∈ w'.versions ∧ v.author = o ∧ v.entry = row.entry ∧
        ∀ later, Reach (step host) anyEvent w' later →
          v ∈ later.versions ∧ later.bytesOf host v.entry.stored = some content ∧
          (later.row = some row → later.localFile = .file content → ∀ reader op,
            later.refresh host reader op (.readFile later.row) =
              later.setPhase reader op (afterRefresh op))

variable {contentType : ContentType} {text : List Char}

/-- What a transaction commits. -/
theorem step_commit (hop : w.ops o = some op) {work : Work} (hphase : op.phase = .working work)
    (hs : work.stage = .commit) {row : Row} (hcurrent : work.current = some row)
    (hstep : step host w (.proceed o) = some w') :
    w' = { w.setPhase o op (if work.fold then afterRefresh op else .done) with
      row := some { row with entry := work.request.entry host row }
      versions := w.versions ++ [work.version host row o]
      lock := none } := by
  simp only [step, hop, hphase, World.work, hs, hcurrent, some.injEq] at hstep
  exact hstep.symm

theorem keepsBytes_of_plain (hplain : Plain content contentType) :
    KeepsBytes host content contentType := by
  intro w hreach o op work hop hphase hs hchange _ w' hstep
  have hsound := sound_of_reach hreach
  obtain ⟨row, hrow⟩ := hsound.locked o op work hop hphase (by rw [hs]; decide)
  have hsound' := (sound_step hsound hstep).1
  have hentry : (work.request.entry host row).stored =
      store host (row.id, row.entry.version + 1) content contentType := by
    simp only [Request.entry, hchange]
  have hput := hrow.put (by rw [hs]; decide) (by rw [hs]; decide) content contentType hchange
  have hbytes : w.bytesOf host (work.request.entry host row).stored = some content := by
    rw [hentry]
    exact bytesOf_store hplain hput
  have hw' := step_commit hop hphase hs hrow.current hstep
  have hblobs : w'.blobs = w.blobs := by rw [hw']; rfl
  have hbytes' : w'.bytesOf host (work.request.entry host row).stored = some content := by
    rw [← hbytes]
    simp only [World.bytesOf, hblobs]
  refine ⟨{ row with entry := work.request.entry host row }, work.version host row o, ?_, hbytes',
    ?_, rfl, rfl, fun later hlater => ?_⟩
  · rw [hw']
  · rw [hw']
    exact mem_append_right _ (.head _)
  · have hversion : work.version host row o ∈ w'.versions := by
      rw [hw']
      exact mem_append_right _ (.head _)
    have hgrows := grows_of_reach hsound' hlater
    have hread : later.bytesOf host (work.request.entry host row).stored = some content :=
      (hgrows.bytesOf hversion).trans hbytes'
    refine ⟨hgrows.versions _ hversion, hread, fun hcurrent hfile reader op => ?_⟩
    have hlive : (work.request.entry host row).deleted = false := by
      simp only [Request.entry, hchange]
    simp only [World.refresh, hcurrent, hfile, hlive, hread, Bool.false_eq_true, if_false, if_true]

/-! ## What is not kept -/

/-- A write of the content by somebody. -/
def writeOf (content : Bytes) (contentType : ContentType) : Request where
  change := .write content contentType
  ifVersion := none
  writer := .user 0

/-- The write begins, looks at the file where there may be one, and goes as far as its commit. -/
def written (host : Host) (content : Bytes) (contentType : ContentType) : List Action :=
  .begin 0 (some (writeOf content contentType)) ::
    List.replicate (if host.hasRoot then 8 else 7) (.proceed 0)

/-- What a transaction of the first document commits. -/
def committing (content : Bytes) (contentType : ContentType) : Work where
  request := writeOf content contentType
  fold := false
  stage := .commit
  current := some (start.placeholder (.user 0) contentType)

theorem written_commits (htext : textOf content contentType = some text)
    (hsize : content.length ≤ MAX_DOCUMENT_BYTES) :
    ∃ w op, exec (step host) start (written host content contentType) = some w ∧
      w.ops 0 = some op ∧ op.phase = .working (committing content contentType) := by
  have hsize : ¬ MAX_DOCUMENT_BYTES < content.length := Nat.not_lt.mpr hsize
  rcases hroot : host.hasRoot with _ | _ <;>
    simp only [start, written, writeOf, hroot, Bool.false_eq_true, ↓reduceIte, reduceReplicate,
      exec, step, World.work, World.setPhase, World.placeholder, Change.apply, isNone_iff_eq_none,
      and_false, and_true, afterRefresh, World.refresh, LocalFile.stat, bind_fun_some, bind_some,
      update_self, update_idem, hsize, zero_add, reduceCtorEq, and_self, all_none, htext, false_and,
      append_nil, some.injEq, committing, exists_and_left, exists_eq_left']

/-- What is stored as text and starts with a mark is not read as it was written. -/
theorem encode_marked (htext : textOf content contentType = some text)
    (hbom : Utf8.bom <+: content) : Utf8.encode text ≠ content := by
  have hdecoded : Utf8.decodeText content = text := by
    unfold textOf at htext
    split at htext
    · cases htext
    · split at htext
      · exact some.inj htext
      · cases htext
  intro heq
  rw [← hdecoded] at heq
  obtain ⟨plain, hhead, rfl⟩ := Utf8.encode_decodeText_iff.mp heq
  exact hhead (Utf8.bom_prefix_encode.mp hbom)

theorem plain_of_keepsBytes (hsize : content.length ≤ MAX_DOCUMENT_BYTES)
    (hkeeps : KeepsBytes host content contentType) (hinsertable : Insertable content contentType) :
    Plain content contentType := by
  intro htext hbom
  obtain ⟨text, htext⟩ := isSome_iff_exists.mp htext
  obtain ⟨w, op, hrun, hop, hphase⟩ := @written_commits host content contentType text htext hsize
  have hstep : ∃ w', step host w (.proceed 0) = some w' := by
    simp only [step, hop, hphase]
    exact ⟨_, rfl⟩
  obtain ⟨w', hstep⟩ := hstep
  obtain ⟨row, v, hrow, hbytes, -⟩ := hkeeps w (reach_of_exec hrun) 0 op _ hop hphase rfl rfl
    hinsertable w' hstep
  have hw' := step_commit hop hphase rfl rfl hstep
  rw [hw'] at hrow
  cases hrow
  simp only [Request.entry, committing, writeOf, store, htext, World.bytesOf, some.injEq] at hbytes
  exact encode_marked htext hbom hbytes

end Catamorphic.Documents
