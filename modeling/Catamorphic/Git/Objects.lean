import Catamorphic.Lib.JsString
import Catamorphic.Lib.Utf8

/-!
# Git objects and what they refer to

The transfer between two stores reads an object's references out of its bytes: a commit's
header names its tree and parents, a tree lists its entries. The store itself is
content-addressed, so an id names one object wherever it is stored.
-/

namespace Catamorphic.Git

/-- An object id, as the text of its hex digits. -/
abbrev Sha := List Char

instance : LawfulBEq Sha := inferInstance

inductive ObjectType where
  | blob
  | tree
  | commit
  | tag
deriving DecidableEq, Repr

structure GitObject where
  type : ObjectType
  data : List UInt8
deriving DecidableEq, Repr

/-- `text.slice(0, text.indexOf("\n\n"))`, or the whole text where there is no empty line. -/
def headerOf : List Char → List Char
  | '\n' :: '\n' :: _ => []
  | c :: cs => c :: headerOf cs
  | [] => []

/-- `text.split("\n")` -/
def splitLines : List Char → List (List Char)
  | [] => [[]]
  | c :: cs =>
    if c = '\n' then [] :: splitLines cs
    else match splitLines cs with
      | [] => [[c]]
      | l :: ls => (c :: l) :: ls

structure ParsedCommit where
  tree : Sha
  parents : List Sha
deriving DecidableEq, Repr

/-- One header line of a commit. The last `tree` line counts. -/
def parseCommitLine (commit : ParsedCommit) (line : List Char) : ParsedCommit :=
  if "tree ".toList.isPrefixOf line then { commit with tree := Text.trim (line.drop 5) }
  else if "parent ".toList.isPrefixOf line then
    { commit with parents := commit.parents ++ [Text.trim (line.drop 7)] }
  else commit

def parseCommit (data : List UInt8) : ParsedCommit :=
  (splitLines (headerOf (Utf8.decodeText data))).foldl parseCommitLine ⟨[], []⟩

structure TreeEntry where
  mode : List Char
  name : List Char
  oid : Sha
deriving DecidableEq, Repr

def hexDigit (n : Nat) : Char := "0123456789abcdef".toList.getD n '0'

/-- `b.toString(16).padStart(2, "0")` -/
def hexByte (b : UInt8) : List Char := [hexDigit (b.toNat / 16), hexDigit (b.toNat % 16)]

/--
The entries of a tree: mode, space, name, NUL, twenty bytes of id. Each round takes at
least one byte, so as many rounds as there are bytes are enough.
-/
def parseTreeFrom : Nat → List UInt8 → List TreeEntry
  | 0, _ => []
  | _ + 1, [] => []
  | fuel + 1, data@(_ :: _) =>
    let mode := data.takeWhile (· ≠ 0x20)
    let afterMode := (data.dropWhile (· ≠ 0x20)).drop 1
    let name := afterMode.takeWhile (· ≠ 0x00)
    let afterName := (afterMode.dropWhile (· ≠ 0x00)).drop 1
    { mode := Utf8.decodeText mode, name := Utf8.decodeText name,
      oid := (afterName.take 20).flatMap hexByte } :: parseTreeFrom fuel (afterName.drop 20)

def parseTree (data : List UInt8) : List TreeEntry := parseTreeFrom data.length data

/-- The mode of a submodule's entry: a commit of another repository. -/
def submoduleMode : List Char := "160000".toList

/-- The ids a transfer follows from an object. -/
def references (obj : GitObject) : List Sha :=
  match obj.type with
  | .commit => (parseCommit obj.data).tree :: (parseCommit obj.data).parents
  | .tree => ((parseTree obj.data).filter (fun e => e.mode ≠ submoduleMode)).map TreeEntry.oid
  | .blob | .tag => []

/-- `b` is named by the object `a` stands for. -/
def Refers (objects : Sha → GitObject) (a b : Sha) : Prop := b ∈ references (objects a)

/-- The bytes of an ASCII text. -/
def ascii (s : String) : List UInt8 := s.toList.map (fun c => UInt8.ofNat c.toNat)

example : references ⟨.tree, ascii "100644 a" ++ 0 :: List.replicate 20 0xA1 ++
    ascii "160000 sub" ++ 0 :: List.replicate 20 0xB2⟩ =
      [(List.replicate 20 "a1".toList).flatten] := by decide

end Catamorphic.Git
