import Catamorphic.Git.OriginObjects
import Catamorphic.Lib.Folders

/-!
# Writing changes into a tree

A tree is rewritten with changes at its paths: files that are written, and files that are
deleted. A folder is no file's place, nothing is written through a file or a symbolic link, and
what is not there need not be deleted.
-/

namespace Catamorphic.Git.Trees

open Folders

/-- A name between two slashes. -/
abbrev Name := List Char

/-- A tree by its entries: files, links and submodules are its leaves. -/
abbrev Tree := Entries Name TreeFile

abbrev Node := Entry Name TreeFile

inductive PathCode
  | ENOENT
  | ENOTDIR
  | EISDIR
  | ELOOP
  deriving DecidableEq

structure DraftPathError where
  code : PathCode
  path : List Name
  deriving DecidableEq

/-- A blob that has been written; without a mode it keeps the old entry's. -/
structure Blob where
  oid : Sha
  mode : Option (List Char)
  deriving DecidableEq

/-- A file to write, or none to delete. -/
abbrev TreeChange := Option Blob

/-- A map from paths. -/
abbrev Changes := List (List Name × TreeChange)

def FILE_MODE : List Char := "100644".toList

def Node.isSymlink : Option Node → Bool
  | some (.leaf file) => file.mode = symlinkMode
  | _ => false

def Node.isFolder : Option Node → Bool
  | some (.folder _) => true
  | _ => false

def Node.isLeaf : Option Node → Bool
  | some (.leaf _) => true
  | _ => false

/-- The mode a file is written with, given the entry that is there. -/
def modeOver (blob : Blob) : Option Node → List Char
  | some (.leaf file) => blob.mode.getD file.mode
  | _ => blob.mode.getD FILE_MODE

section

variable (skipMissingDeletes : Bool)

/-- A change at the tree's own level. -/
def changeHere (base : List Name) (entries : Tree) (name : Name) (change : TreeChange) :
    Except DraftPathError Tree :=
  let existing := find entries name
  if Node.isFolder existing then .error ⟨.EISDIR, base ++ [name]⟩
  else if Node.isSymlink existing then .error ⟨.ELOOP, base ++ [name]⟩
  else match change with
    | none =>
      if existing.isNone then
        if skipMissingDeletes then .ok entries else .error ⟨.ENOENT, base ++ [name]⟩
      else .ok (erase entries name)
    | some blob => .ok (put entries name (.leaf ⟨blob.oid, modeOver blob existing⟩))

/-- The changes of a tree's own files. -/
def hereOf (changes : Changes) : List (Name × TreeChange) :=
  changes.filterMap fun
    | ([name], change) => some (name, change)
    | _ => none

/-- The folders that have changes in them. -/
def directoriesOf (changes : Changes) : List Name :=
  (changes.filterMap fun
    | (directory :: _ :: _, _) => some directory
    | _ => none).eraseDups

/-- The changes in a folder. -/
def nestedIn (changes : Changes) (directory : Name) : Changes :=
  changes.filterMap fun
    | (first :: name :: rest, change) =>
      if first = directory then some (name :: rest, change) else none
    | _ => none

/-- What has become of a folder: kept as it is, gone, or with these entries. -/
inductive Child
  | keep
  | gone
  | rewritten (entries : Tree)

/-- The tree's entries with its folder's. -/
def putChild (entries : Tree) (directory : Name) : Child → Tree
  | .keep => entries
  | .gone => erase entries directory
  | .rewritten inner => put entries directory (.folder inner)

/-- `rewrite`, of paths that are so long at most; none where nothing is left. -/
def rewrite : Nat → Tree → Changes → List Name → Except DraftPathError (Option Tree)
  | 0, entries, _, _ => .ok (some entries)
  | length + 1, entries, changes, base => do
    let entries ← (hereOf changes).foldlM
      (fun entries change => changeHere skipMissingDeletes base entries change.1 change.2) entries
    let children ← (directoriesOf changes).mapM fun directory => do
      let existing := find entries directory
      let inner := nestedIn changes directory
      let fullPath := base ++ [directory]
      if Node.isSymlink existing then throw ⟨.ELOOP, fullPath⟩
      else if Node.isLeaf existing then
        let deleting := inner.all fun change => change.2.isNone
        if deleting && skipMissingDeletes then return (directory, Child.keep)
        else throw ⟨if deleting then .ENOENT else .ENOTDIR,
          fullPath ++ (inner.head?.map Prod.fst).getD []⟩
      else
        match ← rewrite length (Entry.inner existing) inner fullPath with
        | none => return (directory, Child.gone)
        | some entries => return (directory, Child.rewritten entries)
    let entries := children.foldl (fun entries child => putChild entries child.1 child.2) entries
    return if entries.isEmpty then none else some entries

/-- The tree with changes applied. -/
def writeTree (entries : Tree) (changes : Changes) : Except DraftPathError Tree :=
  (rewrite skipMissingDeletes ((changes.map fun change => change.1.length).foldl max 0) entries
    changes []).map fun entries => entries.getD []

end

example : writeTree true [("a".toList, .folder [("b".toList, .leaf ⟨[], FILE_MODE⟩)])]
    [(["a".toList, "b".toList], none), (["c".toList], some ⟨['1'], none⟩)] =
      .ok [("c".toList, .leaf ⟨['1'], FILE_MODE⟩)] := by decide +kernel

end Catamorphic.Git.Trees
