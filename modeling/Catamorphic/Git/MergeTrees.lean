import Catamorphic.Git.WriteTreeProof
import Catamorphic.Git.TextMerge

/-!
# Merging trees

Two trees that come from a base are merged path by path: a path that one side changed takes that
side, a text file that both changed is merged by its lines, and anything else is a conflict, which
a text that is given for it settles. Trees are taken as values here, so that two of one id are
equal, and no base is the empty tree.
-/

namespace Catamorphic.Git.Trees

open Folders Maps

/-! ## The files that differ -/

/-- One path's difference between two trees. -/
structure Difference where
  path : List Name
  before : Option TreeFile
  after : Option TreeFile
  deriving DecidableEq

/-- A folder and a submodule are no file. -/
def fileOf : Option Node → Option TreeFile
  | some (.leaf file) => if file.mode = submoduleMode then none else some file
  | _ => none

/-- The files that differ, in folders so deep. -/
def walkDiff : Nat → Tree → Tree → List Name → List Difference
  | 0, _, _, _ => []
  | depth + 1, left, right, base =>
    if left = right then []
    else ((left ++ right).map Prod.fst).eraseDups.flatMap fun name =>
      let path := base ++ [name]
      let l := find left name
      let r := find right name
      if isPersonalFile (joinSegments path) || l = r then []
      else
        (if Node.isFolder l || Node.isFolder r then
          walkDiff depth (Entry.inner l) (Entry.inner r) path
        else []) ++
        if fileOf l = fileOf r then [] else [⟨path, fileOf l, fileOf r⟩]

-- `a.localeCompare(b) <= 0`
variable (localeLe : Path → Path → Bool)

def diffTrees (before after : Tree) : List Difference :=
  (walkDiff (max (heights before) (heights after)) before after []).mergeSort fun x y =>
    localeLe (joinSegments x.path) (joinSegments y.path)

/-! ## Conflicts -/

/-- A file that both sides changed, with its texts where it has some. -/
structure ConflictEntry where
  path : List Name
  base : Option (List Char)
  ours : Option (List Char)
  theirs : Option (List Char)
  binary : Bool
  deriving DecidableEq

/-- What a merge throws. -/
inductive MergeFailure
  | read (failure : ReadFailure)
  /-- `DraftBinaryResolutionError` -/
  | binary (paths : List (List Name))
  /-- `DraftIgnoredPathError` -/
  | ignored (paths : List (List Name))
  | write (failure : DraftPathError)
  | path (failure : PathFailure)
  /-- `DraftUnresolvedError` -/
  | unresolved (conflicts : List ConflictEntry)
  deriving DecidableEq

/-- What becomes of a path that ours changed. -/
inductive Outcome
  | theirs
  | change (change : TreeChange)
  | conflict (entry : ConflictEntry) (mode : Option (List Char))

/-- A parent of the path is no folder, going down as long as there is something. -/
def parentClashes (tree : Tree) (parents : List (List Name)) : Bool :=
  match parents with
  | [] => false
  | parent :: parents =>
    match entryAt tree parent with
    | none => false
    | some (.leaf _) => true
    | some (.folder _) => parentClashes tree parents

/-- A file at the path would clash with the tree. -/
def clashesWithTree (tree : Tree) (path : List Name) : Bool :=
  Node.isFolder (entryAt tree path) ||
    parentClashes tree ((List.range (path.length - 1)).map fun depth => path.take (depth + 1))

section

variable (diff3Merge : List (List Char) → List (List Char) → List (List Char) →
  List (Diff3Block (List Char)))
variable (objects : Sha → GitObject) (origin : Origin)
-- The id of the blob that `writeBlobs` writes of some bytes.
variable (blobId : List UInt8 → Sha)
-- What the `.gitignore` files of a tree say of a path.
variable (isIgnored : Tree → List Name → Except ReadFailure Bool)

/-- What is read from the origin. -/
def fromOrigin {α : Type} (read : OriginObjects.Read Unit α) : Except MergeFailure α :=
  (read.runOn origin ()).1.mapError .read

def blobOf : Option TreeFile → Except MergeFailure (Option (List UInt8))
  | none => .ok none
  | some file => (fromOrigin origin (OriginObjects.blob objects file.oid)).map some

def conflict (path : List Name) (base ours theirs : Option TreeFile) :
    Except MergeFailure Outcome := do
  let baseBytes ← blobOf objects origin base
  let oursBytes ← blobOf objects origin ours
  let theirsBytes ← blobOf objects origin theirs
  let binary := [baseBytes, oursBytes, theirsBytes].any fun bytes =>
    bytes.any fun bytes => bytes.contains 0
  let text := fun bytes : Option (List UInt8) =>
    if binary then none else bytes.map Utf8.decodeText
  return .conflict ⟨path, text baseBytes, text oursBytes, text theirsBytes, binary⟩
    (((ours.or theirs).or base).map TreeFile.mode)

def mergedText (base ours theirs : Option TreeFile) :
    Except MergeFailure (Option (List UInt8)) :=
  fromOrigin origin (OriginObjects.mergeText diff3Merge objects base ours theirs)

/-- What the merge makes of a path that ours changed. -/
def settle (theirsTree : Tree) (theirsChanges : List Difference) (ours : Difference) :
    Except MergeFailure Outcome :=
  match theirsChanges.find? fun change => change.path = ours.path with
  | none =>
    if ours.after.isSome && clashesWithTree theirsTree ours.path then
      conflict objects origin ours.path ours.before ours.after none
    else return .change (ours.after.map fun file => ⟨file.oid, some file.mode⟩)
  | some theirs =>
    if ours.after = theirs.after then return .theirs
    else do
      match ← mergedText diff3Merge objects origin ours.before ours.after theirs.after,
          ours.after with
      | some merged, some file => return .change (some ⟨blobId merged, some file.mode⟩)
      | _, _ => conflict objects origin ours.path ours.before ours.after theirs.after

/-! ## The merge -/

structure Merging where
  changes : Changes
  conflicts : List ConflictEntry
  /-- The modes that a resolution keeps. -/
  modes : List (List Name × List Char)

def Merging.add (merging : Merging) (path : List Name) : Outcome → Merging
  | .theirs => merging
  | .change change => { merging with changes := setAt merging.changes path change }
  | .conflict entry mode =>
    { merging with
      conflicts := merging.conflicts ++ [entry]
      modes := mode.elim merging.modes fun mode => setAt merging.modes path mode }

def mergeOurs (theirsTree : Tree) (oursChanges theirsChanges : List Difference) :
    Except MergeFailure Merging :=
  oursChanges.foldlM (fun merging ours => do
    let outcome ← settle diff3Merge objects origin blobId theirsTree theirsChanges ours
    return merging.add ours.path outcome) ⟨[], [], []⟩

inductive MergeResult
  | merged (tree : Tree)
  | conflict (conflicts : List ConflictEntry)
  deriving DecidableEq

def mergeTrees (base ours theirs : Tree) (resolutions : List (List Name × List Char)) :
    Except MergeFailure MergeResult := do
  let merging ← mergeOurs diff3Merge objects origin blobId theirs
    (diffTrees localeLe base ours) (diffTrees localeLe base theirs)
  let files := resolutions.map Prod.fst
  let binary := files.filter fun file =>
    merging.conflicts.any fun entry => entry.path = file && entry.binary
  if binary ≠ [] then throw (.binary binary)
  let ignored ← files.filterM fun file =>
    if (valueAt merging.modes file).isSome then return false
    else (isIgnored theirs file).mapError .read
  if ignored ≠ [] then throw (.ignored ignored)
  let changes := resolutions.foldl (fun changes resolved =>
    setAt changes resolved.1
      (some ⟨blobId (Utf8.encode resolved.2), valueAt merging.modes resolved.1⟩)) merging.changes
  let unresolved := merging.conflicts.filter fun entry =>
    (valueAt resolutions entry.path).isNone
  if unresolved ≠ [] then return .conflict unresolved
  else
    let tree ← (writeTree true theirs changes).mapError .write
    return .merged tree

/-- The tree that `resolveConflicts` commits. -/
def resolveConflicts (base ours theirs : Tree) (resolutions : List (Path × List Char)) :
    Except MergeFailure Tree := do
  let entries ← resolutions.mapM fun resolved => do
    let file ← (normalizePath resolved.1).mapError .path
    return (segmentsOf file, resolved.2)
  let result ← mergeTrees localeLe diff3Merge objects origin blobId isIgnored base ours theirs
    (entries.foldl (fun map entry => setAt map entry.1 entry.2) [])
  match result with
  | .merged tree => return tree
  | .conflict conflicts => throw (.unresolved conflicts)

end

end Catamorphic.Git.Trees
