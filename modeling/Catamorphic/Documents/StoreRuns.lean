import Catamorphic.Documents.Store

/-!
# A document's versions form one true history

Under the row's lock versions are numbered without a gap and the row follows the newest one,
whatever fails. That nothing of the file is lost takes more: what stands in the file is known,
in a version or in one that is about to be committed, or is what the operation folds in. An
operation that looked at the file keeps this up to its own change of it, where nobody else
changes the file in between and nobody who changed it fails.
-/

namespace Catamorphic.Documents

open Runs List Option
open Function (update update_self update_of_ne)

variable {host : Host} {w w' : World} {o o' : OpId} {op op' : Op} {c : Bytes} {work : Work}
  {localFile : LocalFile} {key : BlobKey}

/-! ## What is kept of content -/

/-- **Plain content is read back as it was written.** -/
theorem bytesOf_store {contentType : ContentType} (hplain : Plain c contentType)
    (hblob : (textOf c contentType).isNone → host.blobStore = true → w.blobs key = some c) :
    w.bytesOf host (store host key c contentType) = some c := by
  cases htext : textOf c contentType with
  | some text =>
    have hbom := hplain (by rw [htext]; rfl)
    have hvalid : Utf8.encode (Utf8.decode c) = c ∧ Utf8.decodeText c = text := by
      unfold textOf at htext
      split at htext
      · cases htext
      · split at htext
        · exact ⟨‹_›, some.inj htext⟩
        · cases htext
    simp only [store, htext, World.bytesOf]
    rw [← hvalid.2, Utf8.decodeText_eq hbom, hvalid.1]
  | none =>
    by_cases hstore : host.blobStore = true
    · simp only [store, htext, World.bytesOf, hstore]
      exact hblob (by rw [htext]; rfl) hstore
    · simp only [store, htext, World.bytesOf, hstore, Bool.false_eq_true, if_false]

/-- Blobs of the versions' keys keep their bytes. -/
def KeepsBlobs (w w' : World) : Prop :=
  ∀ v ∈ w.versions, ∀ key, v.entry.stored.blobKey = some key → w'.blobs key = w.blobs key

theorem Recorded.keeps (h : w.Recorded host c) (hversions : ∀ v ∈ w.versions, v ∈ w'.versions)
    (hblobs : KeepsBlobs w w') : w'.Recorded host c := by
  obtain ⟨v, hv, hlive, hbytes⟩ := h
  refine ⟨v, hversions v hv, hlive, ?_⟩
  rw [← hbytes]
  unfold World.bytesOf
  cases v.entry.stored.textContent with
  | some text => rfl
  | none =>
    cases v.entry.stored.bytes with
    | some bytes => rfl
    | none =>
      cases hkey : v.entry.stored.blobKey with
      | none => rfl
      | some key => simp only [hblobs v hv key hkey]

/-! ## The invariant -/

/-- An operation changed the file, and commits next. -/
def Pending (w : World) (c : Bytes) : Prop :=
  ∃ o op work contentType, w.ops o = some op ∧ o ∈ w.filed ∧ op.phase = .working work ∧
    work.stage = .commit ∧ work.fold = false ∧ work.request.change = .write c contentType

/-- Content that some version holds, or will. -/
def Known (host : Host) (w : World) (c : Bytes) : Prop := w.Recorded host c ∨ Pending w c

/-- An operation is folding content in. -/
def Op.Folds (op : Op) (c : Bytes) : Prop :=
  ∃ work contentType, op.phase = .working work ∧ work.fold = true ∧
    work.request.change = .write c contentType

/-- The row that a transaction holds: the committed one, or one that it inserted. -/
def Holds (w : World) (row : Row) : Prop :=
  w.row = some row ∨ w.row = none ∧ row.entry.version = 0

/-- What a transaction knows of the row that it holds. -/
structure Work.Held (host : Host) (w : World) (o : OpId) (work : Work) (row : Row) : Prop where
  mine : w.lock = some o
  current : work.current = some row
  holds : Holds w row
  checked : work.stage ≠ .check → work.request.ifVersion.all (· = row.entry.version) = true
  put : work.stage ≠ .check → work.stage ≠ .put → ∀ content contentType,
    work.request.change = .write content contentType →
      (textOf content contentType).isNone → host.blobStore = true →
        w.blobs (row.id, row.entry.version + 1) = some content

/-- What holds of an operation that is under way. -/
structure OpInv (host : Host) (w : World) (o : OpId) (op : Op) : Prop where
  call : ∀ request, op.call = some request → ∀ content contentType,
    request.change = .write content contentType → Plain content contentType
  own : ∀ work, op.phase = .working work → work.fold = false → op.call = some work.request
  held : ∀ work, op.phase = .working work → work.stage ≠ .lock → ∃ row, work.Held host w o row
  selected : ∀ row, op.phase = .readFile (some row) → ∃ v ∈ w.versions, v.entry = row.entry
  folding : ∀ work, op.phase = .working work → work.fold = true → ∀ content contentType,
    work.request.change = .write content contentType →
      contentType = host.pathType ∧ (Known host w content ∨ Plain content host.pathType)
  looked : host.hasRoot = true → op.Exposed → ∀ content, w.localFile = .file content →
    Known host w content ∨ op.Folds content

structure Inv (host : Host) (w : World) : Prop where
  numbered : w.versions.map (·.entry.version) = List.range' 1 w.versions.length
  newest : w.row.map (fun row => (row.id, row.entry)) =
    w.versions.getLast?.map fun v => (v.documentId, v.entry)
  guarded : ∀ v ∈ w.versions, ∀ on, v.ifVersion = some on → v.entry.version = on + 1
  keys : ∀ v ∈ w.versions, ∀ key, v.entry.stored.blobKey = some key →
    ∃ row, w.row = some row ∧ key = (row.id, v.entry.version) ∧ v.entry.version ≤ row.entry.version
  file : ∀ content, w.localFile = .file content →
    Known host w content ∨ Plain content host.pathType
  filed : ∀ o ∈ w.filed, ∃ op, w.ops o = some op ∧ (op.phase = .done ∨
    ∃ work, op.phase = .working work ∧ work.fold = false ∧ work.stage = .commit)
  authors : ∀ v ∈ w.versions, v.fold = false → ∃ op, w.ops v.author = some op ∧ op.phase = .done
  replaced : ∀ content ∈ w.replaced, w.Recorded host content
  ops : ∀ o op, w.ops o = some op → OpInv host w o op

/-- Another operation's step leaves what holds of an operation. -/
theorem OpInv.frame (h : OpInv host w o op)
    (hlock : w.lock = some o → w'.lock = some o ∧ w'.row = w.row ∧ w'.blobs = w.blobs)
    (hversions : ∀ v ∈ w.versions, v ∈ w'.versions) (hknown : ∀ c, Known host w c → Known host w' c)
    (hfile : ∀ c, w'.localFile = .file c → w.localFile = .file c ∨ Known host w' c) :
    OpInv host w' o op where
  call := h.call
  own := h.own
  held work hwork hstage := by
    obtain ⟨row, hheld⟩ := h.held work hwork hstage
    obtain ⟨hmine, hrow, hblobs⟩ := hlock hheld.mine
    refine ⟨row, hmine, hheld.current, ?_, hheld.checked, ?_⟩
    · unfold Holds
      rw [hrow]
      exact hheld.holds
    · rw [hblobs]
      exact hheld.put
  selected row hrow := by
    obtain ⟨v, hv, hentry⟩ := h.selected row hrow
    exact ⟨v, hversions v hv, hentry⟩
  folding work hwork hfold content contentType hchange := by
    obtain ⟨htype, hknown' | hplain⟩ := h.folding work hwork hfold content contentType hchange
    · exact ⟨htype, .inl (hknown content hknown')⟩
    · exact ⟨htype, .inr hplain⟩
  looked hroot hexposed content hcontent := by
    rcases hfile content hcontent with hsame | hnew
    · rcases h.looked hroot hexposed content hsame with hk | hfolds
      · exact .inl (hknown content hk)
      · exact .inr hfolds
    · exact .inl hnew

/-- A step of an operation that neither commits nor changes the file. -/
structure Moved (host : Host) (w : World) (o : OpId) (op' : Op) (w' : World) : Prop where
  ops : w'.ops = update w.ops o (some op')
  row : w'.row = w.row
  versions : w'.versions = w.versions
  localFile : w'.localFile = w.localFile
  filed : w'.filed = w.filed
  replaced : w'.replaced = w.replaced
  blobs : w'.blobs = w.blobs ∨ w.lock = some o ∧ KeepsBlobs w w'
  lock : ∀ o', o' ≠ o → w.lock = some o' → w'.lock = some o'
  op : (∀ c, Known host w c → Known host w' c) → OpInv host w' o op'

theorem Pending.update (h : Pending w c) (hnot : o ∉ w.filed)
    (hops : w'.ops = update w.ops o (some op')) (hfiled : ∀ o' ∈ w.filed, o' ∈ w'.filed) :
    Pending w' c := by
  obtain ⟨o₁, op₁, work, contentType, hop, hmem, hrest⟩ := h
  have hne : o₁ ≠ o := fun heq => hnot (heq ▸ hmem)
  refine ⟨o₁, op₁, work, contentType, ?_, hfiled o₁ hmem, hrest⟩
  rw [hops, update_of_ne hne, hop]

theorem Inv.moved (h : Inv host w) (hnot : o ∉ w.filed)
    (hauthor : ∀ v ∈ w.versions, v.fold = false → v.author ≠ o) (hm : Moved host w o op' w') :
    Inv host w' := by
  have hkeeps : KeepsBlobs w w' := by
    rcases hm.blobs with hb | ⟨-, hb⟩
    · exact fun v _ key _ => by rw [hb]
    · exact hb
  have hrec : ∀ c, w.Recorded host c → w'.Recorded host c := fun c hc =>
    Recorded.keeps hc (by rw [hm.versions]; exact fun _ hv => hv) hkeeps
  have hknown : ∀ c, Known host w c → Known host w' c := by
    rintro c (hc | hc)
    · exact .inl (hrec c hc)
    · exact .inr (hc.update hnot hm.ops (by rw [hm.filed]; exact fun _ ho => ho))
  refine {
    numbered := by rw [hm.versions]; exact h.numbered
    newest := by rw [hm.row, hm.versions]; exact h.newest
    guarded := by rw [hm.versions]; exact h.guarded
    keys := by rw [hm.row, hm.versions]; exact h.keys
    file := fun content hc => ?_
    filed := fun o₁ ho₁ => ?_
    authors := fun v hv hf => ?_
    replaced := fun content hc => hrec content (h.replaced content (by rwa [hm.replaced] at hc))
    ops := fun o₁ op₁ hop₁ => ?_ }
  · rw [hm.localFile] at hc
    exact (h.file content hc).imp_left (hknown content)
  · rw [hm.filed] at ho₁
    obtain ⟨op₁, hop₁, hphase⟩ := h.filed o₁ ho₁
    have hne : o₁ ≠ o := fun heq => hnot (heq ▸ ho₁)
    exact ⟨op₁, by rw [hm.ops, update_of_ne hne, hop₁], hphase⟩
  · rw [hm.versions] at hv
    obtain ⟨op₁, hop₁, hdone⟩ := h.authors v hv hf
    exact ⟨op₁, by rw [hm.ops, update_of_ne (hauthor v hv hf), hop₁], hdone⟩
  · by_cases heq : o₁ = o
    · subst heq
      rw [hm.ops, update_self] at hop₁
      rw [← some.inj hop₁]
      exact hm.op hknown
    · rw [hm.ops, update_of_ne heq] at hop₁
      refine (h.ops o₁ op₁ hop₁).frame (fun hl => ⟨hm.lock o₁ heq hl, hm.row, ?_⟩)
        (by rw [hm.versions]; exact fun _ hv => hv) hknown
        (fun c hc => .inl (by rw [← hm.localFile, hc]))
      rcases hm.blobs with hb | ⟨hmine, -⟩
      · exact hb
      · rw [hl] at hmine
        exact absurd (some.inj hmine) heq

/-! ## Steps of one operation -/

section

variable (h : OpInv host w o op) {phase : Phase}
include h

/-- An operation that stands nowhere in particular. -/
theorem OpInv.elsewhere
    (hw : ∀ work, phase ≠ .working work) (hr : ∀ row, phase ≠ .readFile (some row))
    (hs : phase ≠ .select .absent) : OpInv host w' o { op with phase } where
  call := h.call
  own work hwork := absurd hwork (hw work)
  held work hwork := absurd hwork (hw work)
  selected row hrow := absurd hrow (hr row)
  folding work hwork := absurd hwork (hw work)
  looked _ hexposed := by
    exfalso
    obtain ⟨-, hphase⟩ := hexposed
    dsimp only at hphase
    split at hphase
    · exact hs rfl
    · exact hw _ rfl
    · exact hphase

omit h in
theorem moved_of_setPhase (hinv : (∀ c, Known host w c → Known host (w.setPhase o op phase) c) →
      OpInv host (w.setPhase o op phase) o { op with phase }) :
    Moved host w o { op with phase } (w.setPhase o op phase) :=
  ⟨rfl, rfl, rfl, rfl, rfl, rfl, .inl rfl, fun _ _ hl => hl, hinv⟩

/-- What throws gives up what it holds, and nothing else. -/
theorem moved_of_throw : Moved host w o { op with phase := .threw } (w.throw o op) :=
  ⟨rfl, rfl, rfl, rfl, rfl, rfl, .inl rfl, fun o' hne hl => by
    have hother : ¬ w.lock = some o := fun ho => hne (some.inj (hl.symm.trans ho))
    rw [World.throw, if_neg hother]
    exact hl, fun _ => h.elsewhere (fun _ hwork => nomatch hwork) (fun _ hrow => nomatch hrow)
      (fun hselect => nomatch hselect)⟩

/-- The operation looked whether there is a file. -/
theorem OpInv.statted (hfile : w'.localFile = w.localFile) :
    OpInv host w' o { op with phase := .select w.localFile.stat } where
  call := h.call
  own _ hwork := nomatch hwork
  held _ hwork := nomatch hwork
  selected _ hrow := nomatch hrow
  folding _ hwork := nomatch hwork
  looked _ hexposed content hc := by
    exfalso
    rw [hfile] at hc
    have hsome : w.localFile.stat ≠ .absent := by
      rw [hc, LocalFile.stat]
      split <;> exact fun heq => nomatch heq
    have hexposed := hexposed.2
    split at hexposed
    · rename_i heq
      exact hsome (Phase.select.inj heq)
    · rename_i heq
      cases heq
    · exact hexposed

/-- The operation reads the file beside the row that it selected. -/
theorem OpInv.reading {current : Option Row}
    (hrow : ∀ row, current = some row → ∃ v ∈ w'.versions, v.entry = row.entry) :
    OpInv host w' o { op with phase := .readFile current } where
  call := h.call
  own _ hwork := nomatch hwork
  held _ hwork := nomatch hwork
  selected row hcurrent := hrow row (Phase.readFile.inj hcurrent)
  folding _ hwork := nomatch hwork
  looked _ hexposed := absurd hexposed.2 fun hf => hf

/-- The file was folded in, and is known where the operation goes on. -/
theorem OpInv.refreshed
    (hfile : host.hasRoot = true → op.call.isSome → ∀ content, w'.localFile = .file content →
      Known host w' content) :
    OpInv host w' o { op with phase := afterRefresh op } := by
  rcases eq_none_or_eq_some op.call with hcall | ⟨request, hcall⟩
  · rw [show afterRefresh op = .done by rw [afterRefresh, hcall]]
    exact h.elsewhere (fun _ hwork => nomatch hwork) (fun _ hrow => nomatch hrow)
      (fun hselect => nomatch hselect)
  · have hphase : afterRefresh op = .working { request, fold := false } := by
      rw [afterRefresh, hcall]
    rw [hphase]
    exact {
      call := h.call
      own := fun work hwork _ => by
        obtain rfl := Phase.working.inj hwork
        exact hcall
      held := fun work hwork hstage => by
        obtain rfl := Phase.working.inj hwork
        exact absurd rfl hstage
      selected := fun row hrow => nomatch hrow
      folding := fun work hwork hfold => by
        obtain rfl := Phase.working.inj hwork
        cases hfold
      looked := fun hroot _ content hc =>
        .inl (hfile hroot (by rw [hcall]; rfl) content hc) }

/-- The file is to be folded in. -/
theorem OpInv.folds {change : Change} {ifVersion : Nat}
    (hplain : ∀ content contentType, change = .write content contentType →
      contentType = host.pathType ∧ (Known host w' content ∨ Plain content host.pathType))
    (hfile : host.hasRoot = true → op.call.isSome → ∀ content, w'.localFile = .file content →
      Known host w' content ∨ ∃ contentType, change = .write content contentType) :
    OpInv host w' o { op with phase := .working (foldOf change ifVersion) } where
  call := h.call
  own work hwork hfold := by
    obtain rfl := Phase.working.inj hwork
    cases hfold
  held work hwork hstage := by
    obtain rfl := Phase.working.inj hwork
    exact absurd rfl hstage
  selected row hrow := nomatch hrow
  folding work hwork _ content contentType hchange := by
    obtain rfl := Phase.working.inj hwork
    exact hplain content contentType hchange
  looked hroot hexposed content hc := by
    rcases hfile hroot hexposed.1 content hc with hk | ⟨contentType, hchange⟩
    · exact .inl hk
    · exact .inr ⟨_, contentType, rfl, rfl, hchange⟩

/-- A transaction goes on with the same request. -/
theorem OpInv.advance {work work' : Work} (hphase : op.phase = .working work)
    (hstage : work.stage ≠ .commit) (hrequest : work'.request = work.request)
    (hfold : work'.fold = work.fold) (hknown : ∀ c, Known host w c → Known host w' c)
    (hfile : ¬ (work'.fold = false ∧ work'.stage = .commit) → w'.localFile = w.localFile)
    (hheld : work'.stage ≠ .lock → ∃ row, work'.Held host w' o row) :
    OpInv host w' o { op with phase := .working work' } where
  call := h.call
  own work₁ hwork hf := by
    obtain rfl := Phase.working.inj hwork
    rw [hrequest]
    exact h.own work hphase (hfold ▸ hf)
  held work₁ hwork hs := by
    obtain rfl := Phase.working.inj hwork
    exact hheld hs
  selected row hrow := nomatch hrow
  folding work₁ hwork hf content contentType hchange := by
    obtain rfl := Phase.working.inj hwork
    obtain ⟨htype, hk⟩ := h.folding work hphase (hfold ▸ hf) content contentType
      (hrequest ▸ hchange)
    exact ⟨htype, hk.imp_left (hknown content)⟩
  looked hroot hexposed content hc := by
    rw [hfile hexposed.2] at hc
    have hbefore : op.Exposed := by
      refine ⟨hexposed.1, ?_⟩
      rw [hphase]
      exact fun hcommit => hstage hcommit.2
    rcases h.looked hroot hbefore content hc with hk | ⟨work₁, contentType, hwork, hf, hchange⟩
    · exact .inl (hknown content hk)
    · obtain rfl := Phase.working.inj (hphase.symm.trans hwork)
      exact .inr ⟨work', contentType, rfl, hfold.trans hf, hrequest ▸ hchange⟩

omit h in
theorem row_recorded (h : Inv host w) {row : Row} (hrow : w.row = some row) :
    ∃ v ∈ w.versions, v.entry = row.entry := by
  have hnewest := h.newest
  rw [hrow, map_some] at hnewest
  obtain ⟨v, hlast, hv⟩ := map_eq_some_iff.mp hnewest.symm
  exact ⟨v, mem_of_getLast? hlast, (Prod.mk.inj hv).2⟩

omit h in
/-- **What a step of `refreshLocal` leaves.** -/
theorem moved_refresh (h : Inv host w) (hop : w.ops o = some op)
    (hphase : op.phase = phase) (hw : ∀ work, phase ≠ .working work) (hd : phase ≠ .done)
    (ht : phase ≠ .threw) : ∃ op', Moved host w o op' (w.refresh host o op phase) := by
  have hinv := h.ops o op hop
  cases phase with
  | working work => exact absurd rfl (hw work)
  | done => exact absurd rfl hd
  | threw => exact absurd rfl ht
  | stat =>
    simp only [World.refresh]
    split
    · exact ⟨_, moved_of_setPhase fun _ => hinv.statted rfl⟩
    · rename_i hroot
      exact ⟨_, moved_of_setPhase fun _ => hinv.refreshed fun hr => absurd hr hroot⟩
  | select stat =>
    cases stat with
    | absent =>
      have hknown : host.hasRoot = true → op.call.isSome → ∀ content,
          w.localFile = .file content → Known host w content := by
        intro hroot hcall content hc
        rcases hinv.looked hroot ⟨hcall, by rw [hphase]; trivial⟩ content hc with hk | hf
        · exact hk
        · obtain ⟨work, contentType, hwork, -⟩ := hf
          rw [hphase] at hwork
          cases hwork
      simp only [World.refresh]
      split
      · split
        · exact ⟨_, moved_of_setPhase fun hk => hinv.refreshed fun hroot hcall content hc =>
            hk content (hknown hroot hcall content hc)⟩
        · exact ⟨_, moved_of_setPhase fun hk => hinv.folds (fun _ _ hchange => nomatch hchange)
            fun hroot hcall content hc => .inl (hk content (hknown hroot hcall content hc))⟩
      · exact ⟨_, moved_of_setPhase fun hk => hinv.refreshed fun hroot hcall content hc =>
          hk content (hknown hroot hcall content hc)⟩
    | unfit => exact ⟨_, moved_of_throw hinv⟩
    | file =>
      refine ⟨_, moved_of_setPhase fun _ => hinv.reading fun row hrow => ?_⟩
      exact row_recorded h hrow
  | readFile current =>
    simp only [World.refresh]
    split
    · rename_i bytes hfile
      have hfold : ∀ ifVersion, ∃ op', Moved host w o op' (w.setPhase o op
          (.working (foldOf (.write bytes host.pathType) ifVersion))) := by
        intro ifVersion
        refine ⟨_, moved_of_setPhase fun hk => hinv.folds (fun content contentType hchange => ?_)
          fun _ _ content hc => ?_⟩
        · obtain ⟨rfl, rfl⟩ := Change.write.inj hchange
          exact ⟨rfl, (h.file bytes hfile).imp_left (hk bytes)⟩
        · obtain rfl := LocalFile.file.inj (hfile.symm.trans hc)
          exact .inr ⟨_, rfl⟩
      split
      · rename_i row
        split
        · exact hfold _
        · split
          · rename_i hlive _ recorded hbytes
            split
            · rename_i hsame
              refine ⟨_, moved_of_setPhase fun hk => hinv.refreshed fun _ _ content hc =>
                hk content ?_⟩
              obtain rfl := LocalFile.file.inj (hfile.symm.trans hc)
              obtain ⟨v, hv, hentry⟩ := hinv.selected row hphase
              refine .inl ⟨v, hv, ?_, ?_⟩
              · rw [hentry]
                simpa using hlive
              · rw [hentry, ← hsame]
                exact hbytes
            · exact hfold _
          · exact ⟨_, moved_of_throw hinv⟩
      · exact hfold _
    · exact ⟨_, moved_of_throw hinv⟩

omit h in
/-- What changed the file is done or commits next. -/
theorem not_filed (h : Inv host w) (hop : w.ops o = some op) (hd : op.phase ≠ .done)
    (hw : ∀ work, op.phase = .working work → work.stage ≠ .commit) : o ∉ w.filed := by
  intro ho
  obtain ⟨op₁, hop₁, hphase⟩ := h.filed o ho
  cases hop.symm.trans hop₁
  rcases hphase with hdone | ⟨work, hwork, -, hstage⟩
  · exact hd hdone
  · exact hw work hwork hstage

omit h in
theorem not_author (h : Inv host w) (hop : w.ops o = some op) (hd : op.phase ≠ .done) :
    ∀ v ∈ w.versions, v.fold = false → v.author ≠ o := by
  rintro v hv hf rfl
  obtain ⟨op₁, hop₁, hdone⟩ := h.authors v hv hf
  rw [hop] at hop₁
  exact hd (some.inj hop₁ ▸ hdone)

/-- A transaction takes the row, or inserts it. -/
theorem moved_locked (hphase : op.phase = .working work)
    (hs : work.stage = .lock) (hfree : w.lock = none) {row : Row} (hrow : Holds w row)
    {nextId : DocumentId} :
    Moved host w o { op with phase := .working { work with stage := .check, current := some row } }
      { w.setPhase o op (.working { work with stage := .check, current := some row }) with
        lock := some o, nextId } where
  ops := rfl
  row := rfl
  versions := rfl
  localFile := rfl
  filed := rfl
  replaced := rfl
  blobs := .inl rfl
  lock _ _ hl := by
    rw [hfree] at hl
    cases hl
  op hknown := by
    refine h.advance hphase (by rw [hs]; decide) rfl rfl hknown (fun _ => rfl) fun _ => ⟨row, ?_⟩
    exact {
      mine := rfl
      current := rfl
      holds := hrow
      checked := absurd rfl
      put := absurd rfl }

theorem moved_lock (hphase : op.phase = .working work)
    (hs : work.stage = .lock) (hwork : w.work host o op work = some w') :
    ∃ op', Moved host w o op' w' := by
  unfold World.work at hwork
  simp only [hs] at hwork
  split at hwork
  · split at hwork
    · cases hwork
      exact ⟨_, moved_of_throw h⟩
    · split at hwork
      · rename_i hfree
        split at hwork
        · rename_i row hrow
          cases hwork
          exact ⟨_, moved_locked h hphase hs hfree (.inl hrow)⟩
        · rename_i hnone
          cases hwork
          exact ⟨_, moved_locked h hphase hs hfree (.inr ⟨hnone, rfl⟩)⟩
      · cases hwork
  · split at hwork
    · rename_i row hrow
      split at hwork
      · rename_i hfree
        cases hwork
        exact ⟨_, moved_locked h hphase hs hfree (.inl hrow)⟩
      · cases hwork
    · cases hwork
      exact ⟨_, moved_of_throw h⟩

/-- A transaction goes on to its next stage, and changes nothing. -/
theorem moved_next {work work' : Work} (hphase : op.phase = .working work)
    (hstage : work.stage ≠ .commit) (hrequest : work'.request = work.request)
    (hfold : work'.fold = work.fold) (hheld : ∃ row, work'.Held host w o row) :
    Moved host w o { op with phase := .working work' } (w.setPhase o op (.working work')) :=
  moved_of_setPhase fun hknown =>
    h.advance hphase hstage hrequest hfold hknown (fun _ => rfl) fun _ => by
      obtain ⟨row, hheld⟩ := hheld
      exact ⟨row, hheld.mine, hheld.current, hheld.holds, hheld.checked, hheld.put⟩

theorem moved_check (hphase : op.phase = .working work)
    (hs : work.stage = .check) (hwork : w.work host o op work = some w') :
    ∃ op', Moved host w o op' w' := by
  obtain ⟨row, hheld⟩ := h.held work hphase (by rw [hs]; decide)
  unfold World.work at hwork
  simp only [hs, hheld.current] at hwork
  split at hwork
  · cases hwork
    exact ⟨_, moved_of_throw h⟩
  · split at hwork
    · rename_i hversion
      cases hwork
      refine ⟨_, moved_next h hphase (by rw [hs]; decide) rfl rfl ⟨row, ?_⟩⟩
      exact { hheld with
        current := rfl
        checked := fun _ => hversion
        put := fun _ => absurd rfl }
    · cases hwork
      exact ⟨_, moved_of_throw h⟩

end

/-- The blob of a new version is under a key of its own. -/
theorem keepsBlobs_put (h : Inv host w) {row : Row} (hrow : Holds w row) {content : Bytes}
    {w' : World}
    (hblobs : w'.blobs = update w.blobs (row.id, row.entry.version + 1) (some content)) :
    KeepsBlobs w w' := by
  intro v hv key hkey
  obtain ⟨row', hrow', rfl, hle⟩ := h.keys v hv key hkey
  rw [hblobs]
  refine update_of_ne (fun heq => ?_) _ _
  rcases hrow with hsome | ⟨hnone, -⟩
  · cases hrow'.symm.trans hsome
    have hversion := (Prod.mk.inj heq).2
    omega
  · rw [hnone] at hrow'
    cases hrow'

theorem moved_put (h : Inv host w) (hop : w.ops o = some op)
    (hphase : op.phase = .working work) (hs : work.stage = .put)
    (hwork : w.work host o op work = some w') : ∃ op', Moved host w o op' w' := by
  have hinv := h.ops o op hop
  obtain ⟨row, hheld⟩ := hinv.held work hphase (by rw [hs]; decide)
  have hchecked := hheld.checked (by rw [hs]; decide)
  have hstage : work.stage ≠ .commit := by rw [hs]; decide
  unfold World.work at hwork
  simp only [hs] at hwork
  split at hwork
  · rename_i row₁ content contentType hcurrent hchange
    cases hheld.current.symm.trans hcurrent
    split at hwork
    · cases hwork
      refine ⟨{ op with phase := .working { work with stage := .insert } }, ?_⟩
      have hkeeps : KeepsBlobs w { w.setPhase o op (.working { work with stage := .insert }) with
          blobs := update w.blobs (row.id, row.entry.version + 1) (some content) } :=
        keepsBlobs_put h hheld.holds rfl
      refine {
        ops := rfl, row := rfl, versions := rfl, localFile := rfl, filed := rfl, replaced := rfl
        blobs := .inr ⟨hheld.mine, hkeeps⟩
        lock := fun _ _ hl => hl
        op := fun hknown => hinv.advance hphase hstage rfl rfl hknown (fun _ => rfl) fun _ =>
          ⟨row, ?_⟩ }
      exact { hheld with
        checked := fun _ => hchecked
        put := fun _ _ content' _ hwrite _ _ => by
          obtain ⟨rfl, -⟩ := Change.write.inj (hchange.symm.trans hwrite)
          exact update_self .. }
    · rename_i hinline
      cases hwork
      refine ⟨_, moved_next hinv hphase hstage rfl rfl ⟨row, ?_⟩⟩
      exact { hheld with
        checked := fun _ => hchecked
        put := fun _ _ content' _ hwrite htext hstore => by
          obtain ⟨rfl, rfl⟩ := Change.write.inj (hchange.symm.trans hwrite)
          exact absurd ⟨htext, hstore⟩ hinline }
  · rename_i hnot
    cases hwork
    refine ⟨_, moved_next hinv hphase hstage rfl rfl ⟨row, ?_⟩⟩
    exact { hheld with
      checked := fun _ => hchecked
      put := fun _ _ content contentType hwrite => by
        exact (hnot row content contentType hheld.current hwrite).elim }

/-- The row's version and the next ones are written. -/
theorem moved_written (stage : Stage) (h : OpInv host w o op)
    (hphase : op.phase = .working work) (hs : work.stage = .insert ∨ work.stage = .update ∨
      work.stage = .file) :
    Moved host w o { op with phase := .working { work with stage } }
      (w.setPhase o op (.working { work with stage })) := by
  have hlate : work.stage ≠ .lock ∧ work.stage ≠ .check ∧ work.stage ≠ .put ∧
      work.stage ≠ .commit := by
    rcases hs with hs | hs | hs <;> rw [hs] <;> decide
  obtain ⟨row, hheld⟩ := h.held work hphase hlate.1
  refine moved_next h hphase hlate.2.2.2 rfl rfl ⟨row, ?_⟩
  exact { hheld with
    checked := fun _ => hheld.checked hlate.2.1
    put := fun _ _ => hheld.put hlate.2.1 hlate.2.2.1 }

/-- Only one operation is about to commit what it put into the file: it holds the row. -/
theorem Pending.mine (h : Inv host w) (hpending : Pending w c) (hlock : w.lock = some o)
    (hop : w.ops o = some op) :
    ∃ work contentType, op.phase = .working work ∧ work.stage = .commit ∧ work.fold = false ∧
      work.request.change = .write c contentType := by
  obtain ⟨o₁, op₁, work, contentType, hop₁, -, hphase, hstage, hfold, hchange⟩ := hpending
  obtain ⟨row, hheld⟩ := (h.ops o₁ op₁ hop₁).held work hphase (by rw [hstage]; decide)
  cases hlock.symm.trans hheld.mine
  cases hop.symm.trans hop₁
  exact ⟨work, contentType, hphase, hstage, hfold, hchange⟩

/-- **A change of the file keeps the invariant**: what it replaces is in some version. -/
theorem inv_filed (h : Inv host w) (hop : w.ops o = some op)
    (hphase : op.phase = .working work) (hs : work.stage = .file) (hfold : work.fold = false)
    (hroot : host.hasRoot = true)
    (happly : work.request.change.apply w.localFile = some localFile) :
    Inv host { w.setPhase o op (.working { work with stage := .commit }) with
      localFile, filed := o :: w.filed, replaced := w.localFile.contents ++ w.replaced } := by
  have hinv := h.ops o op hop
  have hstage : work.stage ≠ .commit := by rw [hs]; decide
  have hd : op.phase ≠ .done := fun hdone => by rw [hphase] at hdone; cases hdone
  have hnot : o ∉ w.filed := not_filed h hop hd fun work₁ hwork => by
    obtain rfl := Phase.working.inj (hphase.symm.trans hwork)
    exact hstage
  obtain ⟨row, hheld⟩ := hinv.held work hphase (by rw [hs]; decide)
  have hreplaced : ∀ content, w.localFile = .file content → w.Recorded host content := by
    intro content hc
    have hexposed : op.Exposed := by
      refine ⟨by rw [hinv.own work hphase hfold]; rfl, ?_⟩
      rw [hphase]
      exact fun hcommit => hstage hcommit.2
    rcases hinv.looked hroot hexposed content hc with (hrec | hpending) | ⟨work₁, -, hwork, hf, -⟩
    · exact hrec
    · obtain ⟨work₁, -, hwork, hcommit, -⟩ := hpending.mine h hheld.mine hop
      obtain rfl := Phase.working.inj (hphase.symm.trans hwork)
      exact absurd hcommit hstage
    · obtain rfl := Phase.working.inj (hphase.symm.trans hwork)
      rw [hfold] at hf
      cases hf
  let w' : World := { w.setPhase o op (.working { work with stage := .commit }) with
    localFile, filed := o :: w.filed, replaced := w.localFile.contents ++ w.replaced }
  have hops : w'.ops = update w.ops o
      (some { op with phase := .working { work with stage := .commit } }) := rfl
  have hknown : ∀ c, Known host w c → Known host w' c := by
    rintro c (hrec | hpending)
    · exact .inl hrec
    · exact .inr (hpending.update hnot hops fun o' => mem_cons_of_mem _)
  have hnew : ∀ content, localFile = .file content → Known host w' content := by
    intro content hc
    have hchange : ∃ contentType, work.request.change = .write content contentType := by
      unfold Change.apply at happly
      split at happly
      · cases happly
      · split at happly
        · rename_i content' contentType hchange
          obtain rfl := LocalFile.file.inj ((some.inj happly).trans hc)
          exact ⟨contentType, hchange⟩
        · rw [hc] at happly
          cases happly
    obtain ⟨contentType, hchange⟩ := hchange
    exact .inr ⟨o, _, { work with stage := .commit }, contentType, by rw [hops, update_self],
      mem_cons_self, rfl, rfl, hfold, hchange⟩
  have hother : ∀ o₁ ≠ o, w'.ops o₁ = w.ops o₁ := fun o₁ hne => by
    rw [hops, update_of_ne hne]
  refine {
    __ := h
    file := fun content hc => .inl (hnew content hc)
    filed := fun o₁ ho₁ => ?_
    authors := fun v hv hf => ?_
    replaced := fun content hc => ?_
    ops := fun o₁ op₁ hop₁ => ?_ }
  · by_cases heq : o₁ = o
    · subst heq
      exact ⟨_, by rw [hops, update_self],
        .inr ⟨{ work with stage := .commit }, rfl, hfold, rfl⟩⟩
    · rw [hother o₁ heq]
      exact h.filed o₁ ((mem_cons.mp ho₁).resolve_left heq)
  · rw [hother _ (not_author h hop hd v hv hf)]
    exact h.authors v hv hf
  · rcases mem_append.mp hc with hstood | hbefore
    · cases hfile : w.localFile with
      | file bytes =>
        rw [hfile] at hstood
        obtain rfl := mem_singleton.mp hstood
        exact hreplaced _ hfile
      | absent | directory => rw [hfile] at hstood; cases hstood
    · exact h.replaced content hbefore
  · by_cases heq : o₁ = o
    · subst heq
      rw [hops, update_self] at hop₁
      rw [← some.inj hop₁]
      refine hinv.advance hphase hstage rfl rfl hknown (absurd ⟨hfold, rfl⟩)
        fun _ => ⟨row, ?_⟩
      exact { hheld with
        checked := fun _ => hheld.checked (by rw [hs]; decide)
        put := fun _ _ => hheld.put (by rw [hs]; decide) (by rw [hs]; decide) }
    · rw [hother o₁ heq] at hop₁
      exact (h.ops o₁ op₁ hop₁).frame (fun hl => ⟨hl, rfl, rfl⟩) (fun _ hv => hv) hknown
        fun c hc => .inr (hnew c hc)

/-- The version of the row that a transaction holds is how many versions there are. -/
theorem holds_version (h : Inv host w) {row : Row} (hrow : Holds w row) :
    row.entry.version = w.versions.length := by
  rcases hrow with hsome | ⟨hnone, hzero⟩
  · have hnewest := h.newest
    rw [hsome, map_some] at hnewest
    obtain ⟨v, hlast, hv⟩ := map_eq_some_iff.mp hnewest.symm
    have hmap : (w.versions.map (·.entry.version)).getLast? = some v.entry.version := by
      rw [List.getLast?_map, hlast, map_some]
    rw [h.numbered, List.getLast?_range', if_neg] at hmap
    · rw [← (Prod.mk.inj hv).2]
      have hversion := some.inj hmap
      omega
    · exact Nat.pos_iff_ne_zero.mp (length_pos_of_mem (mem_of_getLast? hlast))
  · have hnewest := h.newest
    rw [hnone, map_none] at hnewest
    have hempty := List.getLast?_eq_none_iff.mp (map_eq_none_iff.mp hnewest.symm)
    rw [hzero, hempty, length_nil]

theorem entry_version (request : Request) (row : Row) :
    (request.entry host row).version = row.entry.version + 1 := by
  unfold Request.entry
  split <;> rfl

/-- The blob of a version, if any, is under the key of its own version. -/
theorem entry_blobKey {request : Request} {row : Row}
    (hkey : (request.entry host row).stored.blobKey = some key) :
    key = (row.id, row.entry.version + 1) := by
  unfold Request.entry store at hkey
  split at hkey
  · dsimp only at hkey
    split at hkey
    · cases hkey
    · split at hkey
      · exact (some.inj hkey).symm
      · cases hkey
  · cases hkey

/-- The version that a transaction records. -/
def Work.version (host : Host) (work : Work) (row : Row) (o : OpId) : Version where
  documentId := row.id
  entry := work.request.entry host row
  author := o
  fold := work.fold
  ifVersion := work.request.ifVersion

/-- **A commit keeps the invariant**: what is written, or folded in, is recorded. -/
theorem inv_commit (h : Inv host w) (hop : w.ops o = some op)
    (hphase : op.phase = .working work) (hs : work.stage = .commit) {row : Row}
    (hheld : work.Held host w o row) :
    Inv host { w.setPhase o op (if work.fold then afterRefresh op else .done) with
      row := some { row with entry := work.request.entry host row }
      versions := w.versions ++ [work.version host row o]
      lock := none } := by
  have hinv := h.ops o op hop
  have hlength := holds_version h hheld.holds
  have hversion : (work.request.entry host row).version = row.entry.version + 1 :=
    entry_version work.request row
  let w' : World := { w.setPhase o op (if work.fold then afterRefresh op else .done) with
    row := some { row with entry := work.request.entry host row }
    versions := w.versions ++ [work.version host row o]
    lock := none }
  show Inv host w'
  have hops : w'.ops = update w.ops o
      (some { op with phase := if work.fold then afterRefresh op else .done }) := rfl
  have hversions : w'.versions = w.versions ++ [work.version host row o] := rfl
  have hmono : ∀ v ∈ w.versions, v ∈ w'.versions := fun v => mem_append_left _
  have hrec : ∀ c, w.Recorded host c → w'.Recorded host c := fun c hc =>
    Recorded.keeps hc hmono fun _ _ _ _ => rfl
  have hwritten : ∀ content contentType, work.request.change = .write content contentType →
      Plain content contentType → w'.Recorded host content := by
    intro content contentType hchange hplain
    have hmem : work.version host row o ∈ w'.versions :=
      mem_append_right _ (mem_singleton.mpr rfl)
    refine ⟨work.version host row o, hmem, ?_, ?_⟩
    · simp only [Work.version, Request.entry, hchange]
    · simp only [Work.version, Request.entry, hchange]
      exact bytesOf_store hplain
        (hheld.put (by rw [hs]; decide) (by rw [hs]; decide) content contentType hchange)
  have hknown : ∀ c, Known host w c → Known host w' c := by
    rintro c (hc | hpending)
    · exact .inl (hrec c hc)
    · obtain ⟨work₁, contentType, hwork, -, hf, hchange⟩ := hpending.mine h hheld.mine hop
      obtain rfl := Phase.working.inj (hphase.symm.trans hwork)
      exact .inl (hwritten c contentType hchange
        (hinv.call _ (hinv.own work hphase hf) c contentType hchange))
  have hother : ∀ o₁ ≠ o, w'.ops o₁ = w.ops o₁ := fun o₁ hne => by
    rw [hops, update_of_ne hne]
  have hnd : op.phase ≠ .done := fun hdone => by rw [hphase] at hdone; cases hdone
  refine {
    numbered := ?_
    newest := by simp [w', Work.version]
    guarded := fun v hv on hon => ?_
    keys := fun v hv key hkey => ?_
    file := fun content hc => (h.file content hc).imp_left (hknown content)
    filed := fun o₁ ho₁ => ?_
    authors := fun v hv hf => ?_
    replaced := fun content hc => hrec content (h.replaced content hc)
    ops := fun o₁ op₁ hop₁ => ?_ }
  · rw [hversions, map_append, h.numbered, length_append, length_singleton, range'_concat]
    simp only [Work.version, map_cons, map_nil, hversion, hlength, Nat.one_mul, Nat.add_comm]
  · rw [hversions] at hv
    rcases mem_append.mp hv with hold | hnew
    · exact h.guarded v hold on hon
    · obtain rfl := mem_singleton.mp hnew
      have hchecked := hheld.checked (by rw [hs]; decide)
      rw [show work.request.ifVersion = some on from hon] at hchecked
      have hon' : on = row.entry.version := by simpa using hchecked
      rw [hon']
      exact hversion
  · rw [hversions] at hv
    refine ⟨{ row with entry := work.request.entry host row }, rfl, ?_⟩
    rcases mem_append.mp hv with hold | hnew
    · obtain ⟨row', hrow', rfl, hle⟩ := h.keys v hold key hkey
      rcases hheld.holds with hsome | ⟨hnone, -⟩
      · cases hsome.symm.trans hrow'
        exact ⟨rfl, by dsimp only; omega⟩
      · rw [hnone] at hrow'
        cases hrow'
    · obtain rfl := mem_singleton.mp hnew
      exact ⟨(entry_blobKey hkey).trans (by simp only [Work.version, hversion]), Nat.le_refl _⟩
  · obtain ⟨op₁, hop₁, hfiled⟩ := h.filed o₁ ho₁
    by_cases heq : o₁ = o
    · subst heq
      cases hop.symm.trans hop₁
      rcases hfiled with hdone | ⟨work₁, hwork, hf, -⟩
      · exact absurd hdone hnd
      · obtain rfl := Phase.working.inj (hphase.symm.trans hwork)
        refine ⟨_, by rw [hops, update_self], .inl ?_⟩
        simp only [hf, Bool.false_eq_true, if_false]
    · exact ⟨op₁, (hother o₁ heq).trans hop₁, hfiled⟩
  · rw [hversions] at hv
    rcases mem_append.mp hv with hold | hnew
    · rw [hother _ (not_author h hop hnd v hold hf)]
      exact h.authors v hold hf
    · obtain rfl := mem_singleton.mp hnew
      refine ⟨_, by rw [hops]; exact update_self .., ?_⟩
      simp only [show work.fold = false from hf, Bool.false_eq_true, if_false]
  · by_cases heq : o₁ = o
    · subst heq
      rw [hops, update_self] at hop₁
      rw [← some.inj hop₁]
      cases hf : work.fold with
      | false =>
        exact hinv.elsewhere (fun _ hwork => nomatch hwork) (fun _ hrow => nomatch hrow)
          (fun hselect => nomatch hselect)
      | true =>
        refine hinv.refreshed fun hroot hcall content hc => ?_
        have hexposed : op.Exposed := by
          refine ⟨hcall, ?_⟩
          rw [hphase]
          exact fun hcommit => by rw [hf] at hcommit; cases hcommit.1
        rcases hinv.looked hroot hexposed content hc with hk
          | ⟨work₁, contentType, hwork, -, hchange⟩
        · exact hknown content hk
        · obtain rfl := Phase.working.inj (hphase.symm.trans hwork)
          obtain ⟨rfl, hk | hplain⟩ := hinv.folding work hphase hf content contentType hchange
          · exact hknown content hk
          · exact .inl (hwritten content _ hchange hplain)
    · rw [hother o₁ heq] at hop₁
      refine (h.ops o₁ op₁ hop₁).frame (fun hl => ?_) hmono hknown
        fun _ => .inl
      exact absurd (some.inj (hl.symm.trans hheld.mine)) heq

theorem inv_work (h : Inv host w) (hop : w.ops o = some op)
    (hphase : op.phase = .working work) (hwork : w.work host o op work = some w') :
    Inv host w' := by
  have hinv := h.ops o op hop
  have hnd : op.phase ≠ .done := fun hdone => by rw [hphase] at hdone; cases hdone
  have hmoved : work.stage ≠ .commit → ∀ op', Moved host w o op' w' → Inv host w' := by
    intro hstage op' hm
    refine h.moved (not_filed h hop hnd fun work₁ hwork₁ => ?_) (not_author h hop hnd) hm
    obtain rfl := Phase.working.inj (hphase.symm.trans hwork₁)
    exact hstage
  cases hs : work.stage with
  | lock =>
    obtain ⟨op', hm⟩ := moved_lock hinv hphase hs hwork
    exact hmoved (by rw [hs]; decide) op' hm
  | check =>
    obtain ⟨op', hm⟩ := moved_check hinv hphase hs hwork
    exact hmoved (by rw [hs]; decide) op' hm
  | put =>
    obtain ⟨op', hm⟩ := moved_put h hop hphase hs hwork
    exact hmoved (by rw [hs]; decide) op' hm
  | insert =>
    have hm := moved_written .update hinv hphase (.inl hs)
    unfold World.work at hwork
    simp only [hs] at hwork
    exact hmoved (by rw [hs]; decide) _ (some.inj hwork ▸ hm)
  | update =>
    have hm := moved_written .file hinv hphase (.inr (.inl hs))
    unfold World.work at hwork
    simp only [hs] at hwork
    exact hmoved (by rw [hs]; decide) _ (some.inj hwork ▸ hm)
  | file =>
    have hm := moved_written .commit hinv hphase (.inr (.inr hs))
    unfold World.work at hwork
    simp only [hs] at hwork
    split at hwork
    · rename_i hown
      split at hwork
      · rename_i localFile happly
        split at hwork
        · exact hmoved (by rw [hs]; decide) _ (some.inj hwork ▸ hm)
        · cases hwork
          exact inv_filed h hop hphase hs hown.1 hown.2 happly
      · cases hwork
        exact hmoved (by rw [hs]; decide) _ (moved_of_throw hinv)
    · exact hmoved (by rw [hs]; decide) _ (some.inj hwork ▸ hm)
  | commit =>
    obtain ⟨row, hheld⟩ := hinv.held work hphase (by rw [hs]; decide)
    unfold World.work at hwork
    simp only [hs] at hwork
    split at hwork
    · cases hwork
    · rename_i row₁ hcurrent
      cases hheld.current.symm.trans hcurrent
      cases hwork
      exact inv_commit h hop hphase hs hheld

/-! ## Runs -/

theorem inv_start : Inv host start where
  numbered := rfl
  newest := rfl
  guarded _ hv := nomatch hv
  keys _ hv := nomatch hv
  file _ hc := nomatch hc
  filed _ ho := nomatch ho
  authors _ hv := nomatch hv
  replaced _ hc := nomatch hc
  ops _ _ hop := nomatch hop

/-- An operation begins. -/
theorem moved_begin {call : Option Request}
    (hplain : ∀ request, call = some request → ∀ content contentType,
      request.change = .write content contentType → Plain content contentType) :
    Moved host w o { call } { w with ops := update w.ops o (some { call }) } where
  ops := rfl
  row := rfl
  versions := rfl
  localFile := rfl
  filed := rfl
  replaced := rfl
  blobs := .inl rfl
  lock _ _ hl := hl
  op _ := {
    call := hplain
    own := fun _ hwork => nomatch hwork
    held := fun _ hwork => nomatch hwork
    selected := fun _ hrow => nomatch hrow
    folding := fun _ hwork => nomatch hwork
    looked := fun _ hexposed => absurd hexposed.2 fun hf => hf }

/-- Somebody else changes the file, where no operation relies on its look at it. -/
theorem inv_edit (h : Inv host w)
    (hlook : host.hasRoot = true → ∀ o op, w.ops o = some op → ¬ op.Exposed)
    (hplain : ∀ bytes, localFile = .file bytes → Plain bytes host.pathType) :
    Inv host { w with localFile } where
  numbered := h.numbered
  newest := h.newest
  guarded := h.guarded
  keys := h.keys
  file content hc := .inr (hplain content hc)
  filed := h.filed
  authors := h.authors
  replaced := h.replaced
  ops o op hop :=
    have hinv := h.ops o op hop
    { call := hinv.call
      own := hinv.own
      held := fun work hwork hstage => by
        obtain ⟨row, hheld⟩ := hinv.held work hwork hstage
        exact ⟨row, hheld.mine, hheld.current, hheld.holds, hheld.checked, hheld.put⟩
      selected := hinv.selected
      folding := hinv.folding
      looked := fun hroot hexposed => absurd hexposed (hlook hroot o op hop) }

theorem inv_step {action : Action} (h : Inv host w) (hok : Careful host w action)
    (hstep : step host w action = some w') : Inv host w' := by
  cases action with
  | begin o call =>
    unfold step at hstep
    dsimp only at hstep
    split at hstep
    · rename_i hnone
      cases hstep
      refine h.moved (o := o) (fun ho => ?_) (fun v hv hf heq => ?_)
        (moved_begin fun request hcall => ?_)
      · obtain ⟨op, hop, -⟩ := h.filed o ho
        rw [hnone] at hop
        cases hop
      · obtain ⟨op, hop, -⟩ := h.authors v hv hf
        rw [heq, hnone] at hop
        cases hop
      · subst hcall
        exact hok
    · cases hstep
  | proceed o =>
    unfold step at hstep
    dsimp only at hstep
    split at hstep
    · rename_i op hop
      split at hstep
      · rename_i work hphase
        exact inv_work h hop hphase hstep
      · cases hstep
      · cases hstep
      · rename_i hnw hnd hnt
        cases hstep
        obtain ⟨op', hm⟩ := moved_refresh h hop rfl hnw hnd hnt
        exact h.moved (not_filed h hop hnd fun work hwork => absurd hwork (hnw work))
          (not_author h hop hnd) hm
    · cases hstep
  | fail o =>
    unfold step at hstep
    dsimp only at hstep
    split at hstep
    · rename_i op hop
      split at hstep
      · cases hstep
      · rename_i hlive
        cases hstep
        exact h.moved hok (not_author h hop fun hd => hlive (.inl hd))
          (moved_of_throw (h.ops o op hop))
    · cases hstep
  | edit localFile =>
    cases hstep
    exact inv_edit h hok.1 hok.2

theorem Inv.gives (h : Inv host w) : w.TrueHistory host where
  __ := h
  thrown o op hop hthrew := by
    have hnd : op.phase ≠ .done := fun hd => by rw [hthrew] at hd; cases hd
    refine ⟨not_filed h hop hnd fun work hwork => ?_, fun v hv hauthor => ?_⟩
    · rw [hthrew] at hwork
      cases hwork
    · by_contra hf
      exact not_author h hop hnd v hv (by simpa using hf) hauthor
  recorded := h.replaced

/-- A host of its own, and a write of two bytes. -/
def ownHost : Host := { hasRoot := true, blobStore := false, pathType := "text/plain".toList }

def greeting : Request where
  change := .write [104, 105] "text/plain".toList
  ifVersion := some 0
  writer := .user 0

/-- The write as far as its change of the file. -/
def greetingFiled : List Action := .begin 0 (some greeting) :: List.replicate 8 (.proceed 0)

/-- What is seen of a state: versions, the row's version, and what became of the first operation. -/
def World.shows (w : World) : List Nat × Option Phase × List OpId × LocalFile :=
  (w.versions.map (·.entry.version), (w.ops 0).map (·.phase), w.filed, w.localFile)

end Catamorphic.Documents
