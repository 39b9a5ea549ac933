import Catamorphic.Lib.Runs
import Catamorphic.Lib.Utf8Encode

/-!
# A document and its local file

A store document is a row, a list of versions, perhaps blobs, and on a single-machine host a
file in the project's folder that anyone may edit. Every read, write and delete first folds
the file back in: an edit becomes a version, a missing file a tombstone. A write or a delete
then works in one transaction that holds the row: it records a version, changes the row, and
last, before it commits, replaces or removes the file.

The model is of one document. What a transaction does to its tables is seen when it commits;
what it does to the file and to the blobs is seen at once.
-/

namespace Catamorphic.Documents

abbrev Bytes := List UInt8
abbrev OpId := Nat
abbrev DocumentId := Nat
abbrev UserId := Nat
abbrev ContentType := List Char

/-- `store/<tenant>/<project>/<document>/<version>` -/
abbrev BlobKey := DocumentId × Nat

def MAX_TEXT_BYTES : Nat := 2 * 1024 * 1024
def MAX_DOCUMENT_BYTES : Nat := 64 * 1024 * 1024

/-! ## Content -/

def isTextType (contentType : ContentType) : Bool :=
  "text/".toList.isPrefixOf contentType ||
    (["json", "yaml", "toml", "xml", "sql", "javascript", "typescript"].any fun name =>
      contentType = "application/".toList ++ name.toList) ||
    contentType = "image/svg+xml".toList

/-- The text of content that is text-like, valid UTF-8 and small enough. The decoder drops a
byte-order mark. -/
def textOf (bytes : Bytes) (contentType : ContentType) : Option (List Char) :=
  if !isTextType contentType || MAX_TEXT_BYTES < bytes.length then none
  else if Utf8.encode (Utf8.decode bytes) = bytes then some (Utf8.decodeText bytes)
  else none

/-- Where the bytes of a version live. -/
structure Stored where
  textContent : Option (List Char) := none
  bytes : Option Bytes := none
  blobKey : Option BlobKey := none
  deriving DecidableEq, Repr

inductive Writer
  /-- `"local-filesystem"` -/
  | localFilesystem
  | user (u : UserId)
  deriving DecidableEq, Repr

/-- What a version says, and the row after it. -/
structure Entry where
  version : Nat
  deleted : Bool
  contentType : ContentType
  size : Nat
  stored : Stored
  writtenBy : Writer
  deriving DecidableEq, Repr

structure Row where
  id : DocumentId
  entry : Entry
  deriving DecidableEq, Repr

structure Version where
  documentId : DocumentId
  entry : Entry
  /-- The operation that recorded it, for its own change or for what it folded in, and the version
  that it was to land on. -/
  author : OpId
  fold : Bool
  ifVersion : Option Nat
  deriving DecidableEq, Repr

/-- What stands at the document's path in the project's folder. -/
inductive LocalFile
  | absent
  | file (bytes : Bytes)
  | directory
  deriving DecidableEq, Repr

/-! ## Operations -/

inductive Change
  | write (content : Bytes) (contentType : ContentType)
  | delete
  deriving DecidableEq, Repr

structure Request where
  change : Change
  ifVersion : Option Nat
  writer : Writer
  deriving DecidableEq, Repr

inductive Stage
  | lock
  | check
  | put
  | insert
  | update
  | file
  | commit
  deriving DecidableEq, Repr

/-- `writeInner` or `deleteInner`. -/
structure Work where
  request : Request
  /-- `localRefresh` -/
  fold : Bool
  stage : Stage := .lock
  /-- The row that it holds. -/
  current : Option Row := none
  deriving DecidableEq, Repr

inductive Stat
  | absent
  | file
  /-- No file, or one that is too large. -/
  | unfit
  deriving DecidableEq, Repr

inductive Phase
  /-- `refreshLocal` -/
  | stat
  | select (stat : Stat)
  | readFile (current : Option Row)
  | working (work : Work)
  | done
  | threw
  deriving DecidableEq, Repr

structure Op where
  /-- What is asked for after the file was folded in; nothing more by a read. -/
  call : Option Request
  phase : Phase := .stat
  deriving DecidableEq, Repr

/-- The host, and what `contentTypeFor` gives for the path. -/
structure Host where
  /-- `localPath` gives a folder. -/
  hasRoot : Bool
  blobStore : Bool
  pathType : ContentType
  deriving DecidableEq, Repr

structure World where
  row : Option Row
  versions : List Version
  blobs : BlobKey → Option Bytes
  localFile : LocalFile
  /-- Who holds the row, or has inserted it. -/
  lock : Option OpId
  nextId : DocumentId
  ops : OpId → Option Op
  /-- The operations that changed the file, and the contents that they replaced or removed. -/
  filed : List OpId
  replaced : List Bytes

/-- No document is there; what stands at its path comes by an edit. -/
def start : World where
  row := none
  versions := []
  blobs := fun _ => none
  localFile := .absent
  lock := none
  nextId := 0
  ops := fun _ => none
  filed := []
  replaced := []

section Host

variable (host : Host)

/-- `bytesOf`; `none` where a blob is not there. -/
def World.bytesOf (w : World) (stored : Stored) : Option Bytes :=
  match stored.textContent, stored.bytes, stored.blobKey with
  | some text, _, _ => some (Utf8.encode text)
  | none, some bytes, _ => some bytes
  | none, none, some key => if host.blobStore then w.blobs key else none
  | none, none, none => some []

/-- Inline text, the blob backend, or inline bytes. -/
def store (key : BlobKey) (content : Bytes) (contentType : ContentType) : Stored :=
  match textOf content contentType with
  | some text => { textContent := some text }
  | none => if host.blobStore then { blobKey := some key } else { bytes := some content }

/-- The entry that a change records over a row. -/
def Request.entry (request : Request) (row : Row) : Entry :=
  match request.change with
  | .write content contentType =>
    { version := row.entry.version + 1
      deleted := false
      contentType
      size := content.length
      stored := store host (row.id, row.entry.version + 1) content contentType
      writtenBy := request.writer }
  | .delete =>
    { version := row.entry.version + 1
      deleted := true
      contentType := row.entry.contentType
      size := 0
      stored := {}
      writtenBy := request.writer }

/-- The row that `writeInner` inserts where there is none. -/
def World.placeholder (w : World) (writer : Writer) (contentType : ContentType) : Row where
  id := w.nextId
  entry := {
    version := 0
    deleted := false
    contentType
    size := 0
    stored := {}
    writtenBy := writer }

def World.setPhase (w : World) (o : OpId) (op : Op) (phase : Phase) : World :=
  { w with ops := Function.update w.ops o (some { op with phase }) }

/-- An operation throws: its transaction is rolled back. -/
def World.throw (w : World) (o : OpId) (op : Op) : World :=
  { w.setPhase o op .threw with lock := if w.lock = some o then none else w.lock }

/-- The file was folded in: the operation itself follows. -/
def afterRefresh (op : Op) : Phase :=
  match op.call with
  | some request => .working { request, fold := false }
  | none => .done

def LocalFile.stat : LocalFile → Stat
  | .absent => .absent
  | .file bytes => if bytes.length ≤ MAX_DOCUMENT_BYTES then .file else .unfit
  | .directory => .unfit

/-- The version that a fold lands on. -/
def foldOf (change : Change) (ifVersion : Nat) : Work where
  request := { change, ifVersion := some ifVersion, writer := .localFilesystem }
  fold := true

/-- The next step of `refreshLocal`. -/
def World.refresh (w : World) (o : OpId) (op : Op) : Phase → World
  | .stat =>
    if host.hasRoot then w.setPhase o op (.select w.localFile.stat)
    else w.setPhase o op (afterRefresh op)
  | .select .absent =>
    match w.row with
    | some row =>
      if row.entry.deleted then w.setPhase o op (afterRefresh op)
      else w.setPhase o op (.working (foldOf .delete row.entry.version))
    | none => w.setPhase o op (afterRefresh op)
  | .select .unfit => w.throw o op
  | .select .file => w.setPhase o op (.readFile w.row)
  | .readFile current =>
    match w.localFile with
    | .file bytes =>
      match current with
      | some row =>
        if row.entry.deleted then
          w.setPhase o op (.working (foldOf (.write bytes host.pathType) row.entry.version))
        else
          match w.bytesOf host row.entry.stored with
          | some recorded =>
            if recorded = bytes then w.setPhase o op (afterRefresh op)
            else w.setPhase o op
              (.working (foldOf (.write bytes host.pathType) row.entry.version))
          | none => w.throw o op
      | none => w.setPhase o op (.working (foldOf (.write bytes host.pathType) 0))
    | _ => w.throw o op
  | _ => w

/-- The file as a change leaves it; `none` where that fails. -/
def Change.apply (change : Change) : LocalFile → Option LocalFile
  | .directory => none
  | _ => match change with
    | .write content _ => some (.file content)
    | .delete => some .absent

def LocalFile.contents : LocalFile → List Bytes
  | .file bytes => [bytes]
  | _ => []

/-- The next step of `writeInner` or `deleteInner`; `none` while it waits for the row. -/
def World.work (w : World) (o : OpId) (op : Op) (work : Work) : Option World :=
  let next (stage : Stage) : World := w.setPhase o op (.working { work with stage })
  match work.stage with
  | .lock =>
    match work.request.change with
    | .write content contentType =>
      if MAX_DOCUMENT_BYTES < content.length then some (w.throw o op)
      else if w.lock = none then
        match w.row with
        | some row =>
          some { w.setPhase o op (.working { work with stage := .check, current := some row })
            with lock := some o }
        | none =>
          let row := w.placeholder work.request.writer contentType
          some { w.setPhase o op (.working { work with stage := .check, current := some row })
            with lock := some o, nextId := w.nextId + 1 }
      else none
    | .delete =>
      match w.row with
      | some row =>
        if w.lock = none then
          some { w.setPhase o op (.working { work with stage := .check, current := some row })
            with lock := some o }
        else none
      | none => some (w.throw o op)
  | .check =>
    match work.current with
    | none => none
    | some row =>
      if work.request.change = .delete ∧ row.entry.deleted then some (w.throw o op)
      else if work.request.ifVersion.all (· = row.entry.version) then some (next .put)
      else some (w.throw o op)
  | .put =>
    match work.current, work.request.change with
    | some row, .write content contentType =>
      if (textOf content contentType).isNone ∧ host.blobStore then
        some { next .insert with
          blobs := Function.update w.blobs (row.id, row.entry.version + 1) (some content) }
      else some (next .insert)
    | _, _ => some (next .insert)
  | .insert => some (next .update)
  | .update => some (next .file)
  | .file =>
    if work.fold = false ∧ host.hasRoot then
      match work.request.change.apply w.localFile with
      | some localFile =>
        if localFile = w.localFile then some (next .commit)
        else some { next .commit with
          localFile
          filed := o :: w.filed
          replaced := w.localFile.contents ++ w.replaced }
      | none => some (w.throw o op)
    else some (next .commit)
  | .commit =>
    match work.current with
    | none => none
    | some row =>
      let entry := work.request.entry host row
      let version : Version := {
        documentId := row.id
        entry
        author := o
        fold := work.fold
        ifVersion := work.request.ifVersion }
      some { w.setPhase o op (if work.fold then afterRefresh op else .done) with
        row := some { row with entry }
        versions := w.versions ++ [version]
        lock := none }

/-! ## Steps -/

inductive Action
  /-- A read, a write or a delete begins. -/
  | begin (o : OpId) (call : Option Request)
  | proceed (o : OpId)
  /-- A step fails, or the caller aborts. -/
  | fail (o : OpId)
  /-- Someone else changes what stands at the path. -/
  | edit (localFile : LocalFile)
  deriving DecidableEq

def step (w : World) : Action → Option World
  | .begin o call =>
    match w.ops o with
    | none => some { w with ops := Function.update w.ops o (some { call }) }
    | some _ => none
  | .proceed o =>
    match w.ops o with
    | some op =>
      match op.phase with
      | .working work => w.work host o op work
      | .done | .threw => none
      | phase => some (w.refresh host o op phase)
    | none => none
  | .fail o =>
    match w.ops o with
    | some op => if op.phase = .done ∨ op.phase = .threw then none else some (w.throw o op)
    | none => none
  | .edit localFile => some { w with localFile }

/-! ## One true history -/

/-- Some version holds these bytes. -/
def World.Recorded (w : World) (bytes : Bytes) : Prop :=
  ∃ v ∈ w.versions, v.entry.deleted = false ∧ w.bytesOf host v.entry.stored = some bytes

/-- **A document's versions form one true history.** -/
structure World.TrueHistory (w : World) : Prop where
  /-- The versions are 1, 2, 3, … -/
  numbered : w.versions.map (·.entry.version) = List.range' 1 w.versions.length
  /-- The row equals its newest version. -/
  newest : w.row.map (fun row => (row.id, row.entry)) =
    w.versions.getLast?.map fun v => (v.documentId, v.entry)
  /-- With `ifVersion v`, a change lands on top of version `v` only. -/
  guarded : ∀ v ∈ w.versions, ∀ on, v.ifVersion = some on → v.entry.version = on + 1
  /-- What threw recorded no version of its own and left the file as it was. -/
  thrown : ∀ o op, w.ops o = some op → op.phase = .threw →
    o ∉ w.filed ∧ ∀ v ∈ w.versions, v.author = o → v.fold = true
  /-- What stood in the file and was replaced or removed is in some version. -/
  recorded : ∀ bytes ∈ w.replaced, w.Recorded host bytes

/-! ## Careful runs -/

/-- Content that is stored as text loses its byte-order mark. -/
def Plain (bytes : Bytes) (contentType : ContentType) : Prop :=
  (textOf bytes contentType).isSome → ¬ Utf8.bom <+: bytes

/-- A write or a delete has looked at the file for the last time and has not changed it yet. -/
def Op.Exposed (op : Op) : Prop :=
  op.call.isSome ∧ match op.phase with
    | .select .absent => True
    | .working work => ¬ (work.fold = false ∧ work.stage = .commit)
    | _ => False

/-- **What a step must meet.** Nobody else changes the file between the last look that a write or a
delete takes at it and its own change; an operation that changed the file commits; and no content
that is stored as text starts with a byte-order mark. -/
def Careful (w : World) : Action → Prop
  | .begin _ (some request) =>
    ∀ content contentType, request.change = .write content contentType →
      Plain content contentType
  | .fail o => o ∉ w.filed
  | .edit localFile =>
    (host.hasRoot → ∀ o op, w.ops o = some op → ¬ op.Exposed) ∧
      ∀ bytes, localFile = .file bytes → Plain bytes host.pathType
  | _ => True

end Host

end Catamorphic.Documents
