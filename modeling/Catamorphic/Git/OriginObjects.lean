import Catamorphic.Git.Paths
import Catamorphic.Lib.Asks

/-!
# Reading an origin's objects

An origin is kept in an object store: objects under their ids, refs under their names. Trees
are walked, histories followed and compared by asking it for one object after another. What an
id names never changes, so two origins differ in the objects they have, not in what these are.
-/

namespace Catamorphic.Git

/-- What a read throws. -/
inductive ReadFailure
  /-- `Object not found: <sha>` -/
  | objectNotFound (sha : Sha)
  /-- `Invalid object sha: <sha>` -/
  | invalidSha (sha : Sha)
  /-- `<oid> is not a commit` -/
  | notCommit (oid : Sha)
  /-- `<oid> is not a tree` -/
  | notTree (oid : Sha)
  /-- `<oid> is not a file` -/
  | notFile (oid : Sha)
  /-- `ELOOP`: `Symbolic links cannot be read or written here` -/
  | symlink (path : Path)
  /-- `ENOENT`: `No such file: <path>` -/
  | noSuchFile (path : Path)
  | path (failure : PathFailure)
  /-- `Histories too far apart to compare` -/
  | tooFarApart
  /-- `Invalid ref name: <ref>` -/
  | invalidRefName (ref : List Char)
  /-- `Unknown ref: <ref>`, of a ref that may not be read. -/
  | refNotAllowed (ref : List Char)
  /-- `Unknown ref: <ref>` -/
  | unknownRef (ref : List Char)
  /-- `Project file '<path>' exceeds the <maxBytes>-byte snapshot limit` -/
  | fileTooLarge (path : Path) (maxBytes : Nat)
  /-- `Project snapshot exceeds the <maxBytes>-byte limit; …` -/
  | snapshotTooLarge (maxBytes : Nat)
  /-- `Snapshot byte limits must be positive integers` -/
  | badLimit
  /-- Trees nested more deeply than they were followed. -/
  | tooDeep
  deriving DecidableEq

/-! ## The origin -/

/-- A key a ref is kept under: `assertRefName` lets it through. -/
def isRefKey (ref : List Char) : Bool := isStoredRefName ref && isValidRefName ref

structure Origin where
  /-- The refs' keys with their bodies, in the order the store lists them. -/
  refs : List (List Char × List Char)
  /-- The objects the store has. -/
  stored : Sha → Bool
  /-- Whoever writes a ref asserts its name. -/
  refKeys : ∀ entry ∈ refs, isRefKey entry.1 = true

/-- An id of the right form that the store has an object for. -/
def Origin.hasObject (origin : Origin) (sha : Sha) : Bool := isSha sha && origin.stored sha

/-- What a ref's body names. -/
def shaOfBody (body : List Char) : Option Sha :=
  let sha := Text.trim body
  if isSha sha then some sha else none

def Origin.resolveRef (origin : Origin) (ref : List Char) : Except ReadFailure (Option Sha) :=
  if isRefKey ref then .ok ((origin.refs.lookup ref).bind shaOfBody)
  else .error (.invalidRefName ref)

/-! ## Commits -/

structure Author where
  name : List Char
  email : List Char
  timestamp : Nat
  deriving DecidableEq

/-- What a commit says, with who wrote it and when. -/
structure CommitText where
  tree : Sha
  parents : List Sha
  author : Author
  message : List Char
  deriving DecidableEq

/-- `text.slice(text.indexOf("\n\n") + 2)`, or nothing where there is no empty line. -/
def messageOf : List Char → List Char
  | '\n' :: '\n' :: rest => rest
  | _ :: cs => messageOf cs
  | [] => []

/-- A reversed `name <email`, at the last ` <`: the email and the name, reversed. -/
def splitMark : List Char → Option (List Char × List Char)
  | '<' :: ' ' :: name => some ([], name)
  | c :: cs => (splitMark cs).map fun (email, name) => (c :: email, name)
  | [] => none

/-- What `.` does not match. -/
def isLineTerminator (c : Char) : Bool :=
  c = '\n' || c = '\r' || c.toNat = 0x2028 || c.toNat = 0x2029

def numberOf (digits : List Char) : Nat :=
  digits.foldl (fun n c => 10 * n + (c.toNat - '0'.toNat)) 0

/-- An author line's end, reversed: `> <unix-ts> <tz>` after the email. -/
def splitTime (line : List Char) : Option (List Char × List Char) :=
  match line with
  | z₁ :: z₂ :: z₃ :: z₄ :: sign :: ' ' :: rest =>
    let digits := rest.takeWhile Char.isDigit
    match rest.dropWhile Char.isDigit with
    | ' ' :: '>' :: before =>
      if [z₁, z₂, z₃, z₄].all Char.isDigit && (sign = '+' || sign = '-') && digits ≠ [] then
        some (digits.reverse, before)
      else none
    | _ => none
  | _ => none

/-- `line.match(/^author (.*) <(.*)> (\d+) [+-]\d{4}$/)` -/
def matchAuthor (line : List Char) : Option Author :=
  match splitTime (line.drop 7).reverse with
  | some (digits, before) =>
    match splitMark before with
    | some (email, name) =>
      if before.any isLineTerminator then none
      else some ⟨name.reverse, email.reverse, numberOf digits⟩
    | none => none
  | none => none

/-- `parseCommit` of the object codec. -/
def parseCommitText (data : List UInt8) : CommitText :=
  let text := Utf8.decodeText data
  let lines := splitLines (headerOf text)
  let treeLine := lines.find? fun line => "tree ".toList.isPrefixOf line
  let authorLine := lines.find? fun line => "author ".toList.isPrefixOf line
  { tree := treeLine.elim [] fun line => Text.trim (line.drop 5)
    parents := (lines.filter fun line => "parent ".toList.isPrefixOf line).map fun line =>
      Text.trim (line.drop 7)
    author := (authorLine.bind matchAuthor).getD ⟨[], [], 0⟩
    message := messageOf text }

example : (parseCommitText (ascii
    "tree ab\nparent cd\nauthor A <B> <a@b> 12 +0000\ncommitter C <c> 1 +0000\n\nhello\n")) =
      ⟨"ab".toList, ["cd".toList], ⟨"A <B>".toList, "a@b".toList, 12⟩, "hello\n".toList⟩ := by
  decide

/-! ## Objects -/

def symlinkMode : List Char := "120000".toList

/-- A file in a tree. -/
structure TreeFile where
  oid : Sha
  mode : List Char
  deriving DecidableEq

/-- One path's difference between two trees. -/
structure TreeDifference where
  path : Path
  before : Option TreeFile
  after : Option TreeFile
  deriving DecidableEq

namespace OriginObjects

open Asks

/-- A read of an origin; a draft keeps what it has resolved. -/
abbrev Read (σ α : Type) := Asks Origin σ ReadFailure α

variable {σ : Type}

-- What each id names.
variable (objects : Sha → GitObject)

def read (oid : Sha) : Read σ GitObject := do
  if !isSha oid then throw (.invalidSha oid)
  else if ← ask fun origin => origin.hasObject oid then return objects oid
  else throw (.objectNotFound oid)

def commit (oid : Sha) : Read σ CommitText := do
  let object ← read objects oid
  if object.type ≠ .commit then throw (.notCommit oid) else return parseCommitText object.data

def blob (oid : Sha) : Read σ (List UInt8) := do
  let object ← read objects oid
  if object.type ≠ .blob then throw (.notFile oid) else return object.data

end OriginObjects

end Catamorphic.Git
