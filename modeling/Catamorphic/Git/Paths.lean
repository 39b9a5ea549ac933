import Catamorphic.Git.Objects

/-!
# Paths and refs of a project

Files are named by slash-separated paths relative to the project, refs by git's rules. A
member's draft has a ref of its own: the member's id is escaped into it so that no two ids
share one.
-/

namespace Catamorphic.Git

abbrev Path := List Char

/-- `path.split("/")` -/
def segmentsOf : Path → List Path
  | [] => [[]]
  | c :: cs =>
    if c = '/' then [] :: segmentsOf cs
    else match segmentsOf cs with
      | [] => [[c]]
      | segment :: segments => (c :: segment) :: segments

def joinSegments (segments : List Path) : Path := ['/'].intercalate segments

theorem segmentsOf_ne_nil (path : Path) : segmentsOf path ≠ [] := by
  cases path with
  | nil => exact List.cons_ne_nil _ _
  | cons c path =>
    rw [segmentsOf]
    split
    · exact List.cons_ne_nil _ _
    · split <;> exact List.cons_ne_nil _ _

theorem joinSegments_segmentsOf (path : Path) : joinSegments (segmentsOf path) = path := by
  induction path with
  | nil => rfl
  | cons c path ih =>
    obtain ⟨segment, segments, hsegments⟩ :=
      List.exists_cons_of_ne_nil (segmentsOf_ne_nil path)
    rw [hsegments] at ih
    rw [segmentsOf, hsegments]
    split
    · next hslash =>
      rw [hslash, ← ih]
      simp [joinSegments]
    · rw [← ih]
      cases segments <;> simp [joinSegments]

theorem segmentsOf_injective : Function.Injective segmentsOf :=
  Function.LeftInverse.injective joinSegments_segmentsOf

/-! ## Normal paths -/

/-- A segment is followed: `..` leaves the folder it is in, where there is one to leave. -/
def followSegment (allowAboveRoot : Bool) (segments : List Path) (segment : Path) : List Path :=
  if segment = [] ∨ segment = ['.'] then segments
  else if segment = ['.', '.'] then
    match segments.getLast? with
    | some last =>
      if last = ['.', '.'] then
        if allowAboveRoot then segments ++ [segment] else segments
      else segments.dropLast
    | none => if allowAboveRoot then [segment] else []
  else segments ++ [segment]

/-- `path.posix.normalize(path)` -/
def normalize (path : Path) : Path :=
  if path = [] then ['.']
  else
    let isAbsolute := path.head? = some '/'
    let trailing := path.getLast? = some '/'
    let normalized := joinSegments ((segmentsOf path).foldl (followSegment !isAbsolute) [])
    if normalized = [] then
      if isAbsolute then ['/'] else if trailing then ['.', '/'] else ['.']
    else (if isAbsolute then ['/'] else []) ++ normalized ++ (if trailing then ['/'] else [])

/-- `path.replaceAll("\\", "/")` -/
def slashed (path : Path) : Path := path.map fun c => if c = '\\' then '/' else c

def isProjectPathWithin (filePath directory : Path) : Bool :=
  let normalized := filePath.dropWhile (· = '/')
  normalized = directory || (directory ++ ['/']).isPrefixOf normalized

def projectPersonalDir : Path := ".work/personal".toList

def isPersonalFile (filePath : Path) : Bool :=
  isProjectPathWithin (normalize (slashed filePath)) projectPersonalDir

/-- Why a path is refused. -/
inductive PathFailure
  /-- `Absolute paths not allowed` -/
  | absolute
  /-- `Path traversal detected` -/
  | traversal
  /-- `Personal files are local-only and cannot be accessed through project APIs` -/
  | personal
  /-- `Cannot access .git directory` -/
  | gitDirectory
  /-- `EISDIR` -/
  | folder (path : Path)
  deriving DecidableEq

def assertSafePath (filePath : Path) : Except PathFailure Unit :=
  let normalized := normalize filePath
  if normalized.head? = some '/' then .error .absolute
  else if ['.', '.'].isPrefixOf normalized then .error .traversal
  else if isPersonalFile normalized then .error .personal
  else if (segmentsOf (slashed normalized)).any fun segment =>
      segment.map Char.toLower = ".git".toList then .error .gitDirectory
  else .ok ()

/-- `path.replace(/^(\.\/)+/, "")` -/
def withoutDots : Path → Path
  | '.' :: '/' :: rest => withoutDots rest
  | path => path

def normalizePath (filePath : Path) : Except PathFailure Path :=
  let slashed := slashed filePath
  if slashed.head? = some '/' then .error .absolute
  else
    let normalized := withoutDots (normalize slashed)
    match assertSafePath normalized with
    | .error failure => .error failure
    | .ok () =>
      if normalized = [] ∨ normalized = ['.'] then .error (.folder filePath) else .ok normalized

example : normalize "a/./b/../c//d/".toList = "a/c/d/".toList := by decide

/-! ## Refs -/

/-- `text.includes(part)` -/
def includes (part : List Char) : List Char → Bool
  | [] => part = []
  | c :: cs => part.isPrefixOf (c :: cs) || includes part cs

/-- Control characters, space, and git's reserved punctuation. -/
def isReserved (c : Char) : Bool :=
  c.toNat ≤ 0x20 || c.toNat = 0x7F || "~^:?*[\\".toList.contains c

def isValidRefName (ref : List Char) : Bool :=
  if ref = [] ∨ ref = ['@'] ∨ ref.getLast? = some '/' ∨ ref.getLast? = some '.' then false
  else if includes "..".toList ref || includes "//".toList ref || includes "@\x7b".toList ref then
    false
  else if ref.any isReserved then false
  else (segmentsOf ref).all fun segment =>
    segment ≠ [] && segment.head? ≠ some '.' && !".lock".toList.isSuffixOf segment

/-- `refs/`, and then only ASCII letters, digits, `.`, `_`, `-` and `/`. -/
def isStoredRefName (ref : List Char) : Bool :=
  "refs/".toList.isPrefixOf ref && 5 < ref.length &&
    (ref.drop 5).all fun c => (c.toNat < 128 && c.isAlphanum) || "._-/".toList.contains c

/-- `/^[0-9a-f]{40}$/` -/
def isSha (text : List Char) : Bool :=
  text.length = 40 && text.all fun c => c.isDigit || ('a' ≤ c && c ≤ 'f')

def mainRef : List Char := "refs/heads/main".toList
def draftRefPrefix : List Char := "refs/work/drafts".toList

/-- One byte of a member's id. -/
def escapeByte (byte : UInt8) : List Char :=
  let char := Char.ofNat byte.toNat
  if ('a' ≤ char && char ≤ 'z') || ('0' ≤ char && char ≤ '9') || char = '-' then [char]
  else '_' :: hexByte byte

/-- The draft ref of one member. -/
def draftRef (externalUserId : String) : List Char :=
  draftRefPrefix ++ '/' :: externalUserId.toUTF8.data.toList.flatMap escapeByte

theorem hexDigit_inj {m n : Nat} (hm : m < 16) (hn : n < 16) (h : hexDigit m = hexDigit n) :
    m = n := by
  revert h
  revert n
  revert m
  decide

theorem hexByte_inj {a b : UInt8} (h : hexByte a = hexByte b) : a = b := by
  have ha := a.toNat_lt
  have hb := b.toNat_lt
  simp only [hexByte, List.cons.injEq, and_true] at h
  have hhigh := hexDigit_inj (by omega) (by omega) h.1
  have hlow := hexDigit_inj (by omega) (by omega) h.2
  exact UInt8.toNat_inj.mp (by omega)

end Catamorphic.Git
