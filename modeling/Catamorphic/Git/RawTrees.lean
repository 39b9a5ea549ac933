import Catamorphic.Git.WriteTree
import Catamorphic.Lib.Utf8Encode

/-!
# Rewriting the trees of an origin

The entries of a tree as an origin keeps them: a name is its bytes, which need not be a text. Each
tree that is rewritten is written in git's order; one that is not stays the object that it was.
-/

namespace Catamorphic.Git.RawTrees

open Folders Trees

/-! ## Entries -/

/-- A name by its bytes. -/
abbrev RawName := List UInt8

/-- A tree's entries; its files, links and submodules have their modes. -/
abbrev RawTree := Entries RawName TreeFile

abbrev RawNode := Entry RawName TreeFile

/-- A map key for a stored name: its bytes, not their UTF-8 reading. -/
def nameKey (bytes : RawName) : List Char := bytes.flatMap hexByte

/-- The bytes of a name that is given by text. -/
def nameBytes (name : Name) : RawName := Utf8.encode name

def isFolder : Option RawNode → Bool
  | some (.folder _) => true
  | _ => false

def isLeaf : Option RawNode → Bool
  | some (.leaf _) => true
  | _ => false

def isSymlink : Option RawNode → Bool
  | some (.leaf file) => file.mode = symlinkMode
  | _ => false

/-! ## Git's order -/

/-- Bytewise by name, a tree sorting as if named `name/`. -/
def treeSortKey : RawName × RawNode → List UInt8
  | (name, .leaf _) => name
  | (name, .folder _) => name ++ [0x2f]

def compareBytes : List UInt8 → List UInt8 → Int
  | a :: as, b :: bs =>
    let delta : Int := a.toNat - b.toNat
    if delta ≠ 0 then delta else compareBytes as bs
  | as, bs => as.length - bs.length

/-- The order of two entries in a tree's object. -/
def entryLe (a b : RawName × RawNode) : Bool := compareBytes (treeSortKey a) (treeSortKey b) ≤ 0

/-- The entries as `serializeTree` writes them. -/
def serializeTree (entries : RawTree) : RawTree := entries.mergeSort entryLe

/-! ## Rewriting -/

/-- The mode a file is written with, given the entry that is there. -/
def modeOver (blob : Blob) : Option RawNode → List Char
  | some (.leaf file) => blob.mode.getD file.mode
  | _ => blob.mode.getD FILE_MODE

section

variable (skipMissingDeletes : Bool)

/-- A change at the tree's own level. -/
def changeHere (base : List Name) (entries : RawTree) (name : Name) (change : TreeChange) :
    Except DraftPathError RawTree :=
  let existing := find entries (nameBytes name)
  if isFolder existing then .error ⟨.EISDIR, base ++ [name]⟩
  else if isSymlink existing then .error ⟨.ELOOP, base ++ [name]⟩
  else match change with
    | none =>
      if existing.isNone then
        if skipMissingDeletes then .ok entries else .error ⟨.ENOENT, base ++ [name]⟩
      else .ok (erase entries (nameBytes name))
    | some blob =>
      .ok (put entries (nameBytes name) (.leaf ⟨blob.oid, modeOver blob existing⟩))

/-- What has become of a folder: kept as it is, gone, or with these entries. -/
inductive Child
  | keep
  | gone
  | rewritten (entries : RawTree)

/-- The tree's entries with its folder's. -/
def putChild (entries : RawTree) (directory : Name) : Child → RawTree
  | .keep => entries
  | .gone => erase entries (nameBytes directory)
  | .rewritten inner => put entries (nameBytes directory) (.folder inner)

/-- What is written of a tree's entries; nothing where none is left. -/
def writtenOf (entries : RawTree) : Option RawTree :=
  if entries.isEmpty then none else some (serializeTree entries)

/-- `rewrite`, of paths that are so long at most. -/
def rewrite : Nat → RawTree → Changes → List Name → Except DraftPathError (Option RawTree)
  | 0, entries, _, _ => .ok (writtenOf entries)
  | length + 1, entries, changes, base => do
    let entries ← (hereOf changes).foldlM
      (fun entries change => changeHere skipMissingDeletes base entries change.1 change.2) entries
    let children ← (directoriesOf changes).mapM fun directory => do
      let existing := find entries (nameBytes directory)
      let inner := nestedIn changes directory
      let fullPath := base ++ [directory]
      if isSymlink existing then throw ⟨.ELOOP, fullPath⟩
      else if isLeaf existing then
        let deleting := inner.all fun change => change.2.isNone
        if deleting && skipMissingDeletes then return (directory, Child.keep)
        else throw ⟨if deleting then .ENOENT else .ENOTDIR,
          fullPath ++ (inner.head?.map Prod.fst).getD []⟩
      else
        match ← rewrite length (Entry.inner existing) inner fullPath with
        | none => return (directory, Child.gone)
        | some entries => return (directory, Child.rewritten entries)
    let entries := children.foldl (fun entries child => putChild entries child.1 child.2) entries
    return writtenOf entries

/-- The changes by the names on their paths. -/
def segmented (changes : List (Path × TreeChange)) : Changes :=
  changes.map fun change => (segmentsOf change.1, change.2)

/-- The tree with changes applied. -/
def writeTree (entries : RawTree) (changes : List (Path × TreeChange)) :
    Except DraftPathError RawTree :=
  (rewrite skipMissingDeletes
    (((segmented changes).map fun change => change.1.length).foldl max 0) entries
    (segmented changes) []).map fun entries => entries.getD []

end

end Catamorphic.Git.RawTrees
