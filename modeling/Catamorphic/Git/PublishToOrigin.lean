import Catamorphic.Git.OriginHistory
import Catamorphic.Git.MergeTrees
import Catamorphic.Lib.Contended

/-!
# Publishing into an origin

A member's draft, or a member's files, become one commit on `main`. What is published is planned
on the refs as they are read, and then `main` is moved if it is still where it was planned on;
others move refs meanwhile, so a lost race plans again.
-/

namespace Catamorphic.Git

open Maps

/-! ## Refs -/

/-- What a ref holds, however it is written. -/
def Origin.held (origin : Origin) (ref : List Char) : Option Sha :=
  (origin.refs.lookup ref).map Text.trim

def Origin.withRef (origin : Origin) (ref : List Char) (sha : Sha) (h : isRefKey ref = true) :
    Origin where
  refs := setAt origin.refs ref sha
  stored := origin.stored
  refKeys := by
    intro entry hentry
    rcases of_mem_setAt hentry with rfl | hentry
    · exact h
    · exact origin.refKeys entry hentry

def Origin.withoutRef (origin : Origin) (ref : List Char) : Origin where
  refs := origin.refs.filter fun entry => entry.1 ≠ ref
  stored := origin.stored
  refKeys := fun entry hentry => origin.refKeys entry (List.mem_filter.mp hentry).1

def Origin.withObject (origin : Origin) (sha : Sha) : Origin :=
  { origin with stored := fun other => other = sha || origin.stored other }

namespace Publishing

open Contended Trees

/-! ## What is published -/

/-- What `guard` throws. -/
abbrev Refusal := List Char

/-- A call on the origin that failed, by what it says. -/
abbrev Fault := List Char

inductive PublishFailure
  /-- `NoDraftError` -/
  | noDraft
  /-- `DraftBusyError`: `The project changed while saving. Try again.` -/
  | busy
  /-- `RefMovedError` -/
  | refMoved (ref : List Char)
  /-- `DraftIgnoredPathError` -/
  | ignored (paths : List (List Name))
  /-- `InvalidBaseError`: `<base> is not a commit of the published program` -/
  | invalidBase (base : List Char)
  | refused (refusal : Refusal)
  | path (failure : PathFailure)
  | read (failure : ReadFailure)
  | merge (failure : MergeFailure)
  | write (failure : DraftPathError)
  /-- A read of the origin, or a write of an object, failed. -/
  | fault (fault : Fault)
  /-- An update or a deletion of a ref failed. -/
  | refFault (fault : Fault)
  deriving DecidableEq

/-- A tree with the id it is kept under. -/
structure NamedTree where
  id : Sha
  entries : Tree
  deriving DecidableEq

structure CommitData where
  tree : Sha
  parents : List Sha
  author : Author
  message : List Char
  deriving DecidableEq

inductive PublishStatus
  | deployed
  | nothingToDeploy
  | conflict
  deriving DecidableEq

structure DraftPublishResult where
  status : PublishStatus
  commitSha : Option Sha
  remoteSha : Option Sha
  conflicts : List ConflictEntry
  deriving DecidableEq

/-- `main` is at the commit. -/
def deployed (sha : Sha) : DraftPublishResult := ⟨.deployed, some sha, some sha, []⟩

structure PublishInput where
  message : List Char
  name : List Char
  email : List Char
  guard : Option (List (List Name) → Except Refusal Unit)

/-! ## Working on an origin -/

/-- The origin, and the clock. -/
structure Site where
  origin : Origin
  now : Nat

inductive Event
  | read (ref : List Char) (value : Option Sha)
  | guarded (paths : List (List Name))
  /-- A ref was written or deleted. -/
  | wrote (ref : List Char) (before after : Origin)

abbrev Publish (α : Type) := Contended Site Fault Event PublishFailure α

/-- A read of the origin. -/
def atOrigin {α : Type} (f : Origin → Except PublishFailure α) : Publish α :=
  operation .fault fun site => (f site.origin).map fun a => (a, site, [])

def reading {α : Type} (read : OriginObjects.Read Unit α) : Publish α :=
  atOrigin fun origin => (read.runOn origin ()).1.mapError .read

def resolveRef (ref : List Char) : Publish (Option Sha) :=
  operation .fault fun site =>
    ((site.origin.resolveRef ref).mapError .read).map fun value =>
      (value, site, [.read ref value])

/-- What becomes of a ref that still holds what is expected, `null` where it is to be missing. -/
def changeRef (ref : List Char) (expected : Option Sha)
    (change : (origin : Origin) → isRefKey ref = true → Origin) : Publish Unit :=
  operation .refFault fun site =>
    if h : isRefKey ref = true then
      if site.origin.held ref = expected then
        let after := change site.origin h
        .ok ((), { site with origin := after }, [.wrote ref site.origin after])
      else .error (.refMoved ref)
    else .error (.read (.invalidRefName ref))

def updateRef (ref : List Char) (sha : Sha) (expected : Option Sha) : Publish Unit :=
  changeRef ref expected fun origin h => origin.withRef ref sha h

def deleteRef (ref : List Char) (expected : Sha) : Publish Unit :=
  changeRef ref (some expected) fun origin _ => origin.withoutRef ref

/-- Runs one attempt; a lost race comes to nothing. -/
def attempt {α : Type} (fn : Publish (Option α)) : Publish (Option α) :=
  tryCatch fn fun
    | .refMoved _ => return none
    | failure => throw failure

/-- A write that landed meanwhile keeps the draft. -/
def clearDraft (ref : List Char) (expected : Sha) : Publish Unit :=
  tryCatch (deleteRef ref expected) fun
    | .refMoved _ => return ()
    | failure => throw failure

/-- `guard?.(paths)` -/
def callGuard (guard : Option (List (List Name) → Except Refusal Unit))
    (paths : List (List Name)) : Publish Unit :=
  match guard with
  | none => return ()
  | some guard => do
    note [.guarded paths]
    match guard paths with
    | .ok () => return ()
    | .error refusal => throw (.refused refusal)

section

-- What each id names, a tree's with the trees in it.
variable (objects : Sha → GitObject) (trees : Sha → Tree)
variable (localeLe : Path → Path → Bool)
variable (diff3Merge : List (List Char) → List (List Char) → List (List Char) →
  List (Diff3Block (List Char)))
-- The ids that blobs, trees and commits are written under.
variable (blobId : List UInt8 → Sha) (treeId : Tree → Sha)
variable (commitId : CommitData → { sha : Sha // isSha sha = true })
variable (isIgnored : Tree → List Name → Except ReadFailure Bool)

/-- `(await objects.commit(sha)).tree` -/
def treeOf (sha : Sha) : Publish NamedTree := do
  let commit ← reading (OriginObjects.commit objects sha)
  return ⟨commit.tree, trees commit.tree⟩

/-- The same, of no commit. -/
def treeOfTip : Option Sha → Publish (Option NamedTree)
  | none => return none
  | some sha => return some (← treeOf objects trees sha)

/-- No tree is read as an empty one. -/
def entriesOf (tree : Option NamedTree) : Tree := tree.elim [] NamedTree.entries

def merge (base ours theirs : Tree) : Publish MergeResult :=
  atOrigin fun origin =>
    (mergeTrees localeLe diff3Merge objects origin blobId isIgnored base ours theirs []).mapError
      .merge

def writeCommit (commit : Nat → CommitData) : Publish Sha :=
  operation .fault fun site =>
    let sha := (commitId (commit site.now)).val
    .ok (sha, { site with origin := site.origin.withObject sha }, [])

/-- Guards what `tree` changes on `main`, commits it and moves `main` there. -/
def commitOnMain (input : PublishInput) (main : Option Sha) (mainTree : Option NamedTree)
    (tree : NamedTree) : Publish Sha := do
  callGuard input.guard
    ((diffTrees localeLe (entriesOf mainTree) tree.entries).map Difference.path)
  let sha ← writeCommit commitId fun now =>
    ⟨tree.id, main.toList, ⟨input.name, input.email, now⟩, input.message⟩
  updateRef mainRef sha main
  return sha

/-! ## A member's draft -/

/-- Lost compare-and-swap races before a write gives up. -/
def MAX_ATTEMPTS : Nat := 8

/-- What is to be published, and on which commit. -/
structure Plan where
  main : Option Sha
  tree : NamedTree

inductive PublishPlan
  | done (result : DraftPublishResult)
  | publish (draft : Sha) (plan : Plan)

/-- Nothing to publish: the draft goes. -/
def nothing (ref : List Char) (draft main : Option Sha) : Publish PublishPlan := do
  if let some draft := draft then clearDraft ref draft
  return .done ⟨.nothingToDeploy, none, main, []⟩

def planned (ref : List Char) (draft main : Sha) (mainTree tree : NamedTree) :
    Publish PublishPlan :=
  if tree.id = mainTree.id then nothing ref (some draft) (some main)
  else return .publish draft ⟨some main, tree⟩

def planPublish (ref : List Char) : Publish PublishPlan := do
  let draft ← resolveRef ref
  let main ← resolveRef mainRef
  match draft, main with
  | none, main => nothing ref none main
  | some draft, none => return .publish draft ⟨none, ← treeOf objects trees draft⟩
  | some draft, some main =>
    let draftTree ← treeOf objects trees draft
    let compared ← reading (OriginObjects.compare objects draft main)
    let mainTree ← treeOf objects trees main
    if compared.base = some main then planned ref draft main mainTree draftTree
    else
      let baseTree ← treeOfTip objects trees compared.base
      match ← merge objects localeLe diff3Merge blobId isIgnored (entriesOf baseTree)
          draftTree.entries mainTree.entries with
      | .conflict conflicts => return .done ⟨.conflict, some draft, some main, conflicts⟩
      | .merged tree => planned ref draft main mainTree ⟨treeId tree, tree⟩

def publishRound (ref : List Char) (input : PublishInput) :
    Publish (Option DraftPublishResult) := do
  match ← planPublish objects trees localeLe diff3Merge blobId treeId isIgnored ref with
  | .done result => return some result
  | .publish draft plan =>
    let published ← attempt do
      let mainTree ← treeOfTip objects trees plan.main
      let sha ← commitOnMain localeLe commitId input plan.main mainTree plan.tree
      clearDraft ref draft
      return some sha
    return published.map deployed

/-- Publishes the draft of `member`, or throws where this is a view without one. -/
def publish (member : Option String) (input : PublishInput) : Publish DraftPublishResult :=
  match member with
  | none => throw .noDraft
  | some member =>
    retry (publishRound objects trees localeLe diff3Merge blobId treeId commitId isIgnored
      (draftRef member) input) .busy MAX_ATTEMPTS

/-! ## A member's files -/

structure FilesInput extends PublishInput where
  files : List (Path × List Char)
  base : Option (List Char)

/-- The commit the files were edited from, where `main` is another. -/
def baseOf (base : Option (List Char)) (main : Option Sha) : Option (Sha × Sha) :=
  match base, main with
  | some base, some main => if base = [] ∨ base = main then none else some (base, main)
  | _, _ => none

/-- `main` with the files, as they are or merged from their base. -/
def mergeFiles (changes : Changes) (base : Option (List Char)) (main : Option Sha)
    (mainTree : Option NamedTree) : Publish MergeResult := do
  match baseOf base main with
  | none =>
    let tree ← atOrigin fun _ =>
      (writeTree false (entriesOf mainTree) changes).mapError .write
    return .merged tree
  | some (base, main) =>
    if !isSha base then throw (.invalidBase base)
    else if !(← reading (OriginObjects.isReachable objects base [main] 20000)) then
      throw (.invalidBase base)
    else
      let baseTree ← treeOf objects trees base
      let ours ← atOrigin fun _ =>
        (writeTree false baseTree.entries changes).mapError .write
      merge objects localeLe diff3Merge blobId isIgnored baseTree.entries ours
        (entriesOf mainTree)

def filesRound (changes : Changes) (input : FilesInput) : Publish (Option DraftPublishResult) :=
  attempt do
    let main ← resolveRef mainRef
    let mainTree ← treeOfTip objects trees main
    let ignored ← atOrigin fun _ =>
      ((changes.map Prod.fst).filterM fun file =>
        isIgnored (entriesOf mainTree) file).mapError .read
    if ignored ≠ [] then throw (.ignored ignored)
    else
      match ← mergeFiles objects trees localeLe diff3Merge blobId isIgnored changes input.base main
          mainTree with
      | .conflict conflicts => return some ⟨.conflict, input.base, main, conflicts⟩
      | .merged tree =>
        if some (treeId tree) = mainTree.map NamedTree.id then
          return some ⟨.nothingToDeploy, none, main, []⟩
        else
          let sha ← commitOnMain localeLe commitId input.toPublishInput main mainTree
            ⟨treeId tree, tree⟩
          return some (deployed sha)

/-- The files by their paths, with the blobs they are written as. -/
def changesOf (files : List (Path × List Char)) : Except PathFailure Changes := do
  let entries ← files.mapM fun file => do
    let path ← normalizePath file.1
    return (segmentsOf path, Utf8.encode file.2)
  return entries.foldl (fun changes entry => setAt changes entry.1 (some ⟨blobId entry.2, none⟩)) []

def publishFilesToOrigin (input : FilesInput) : Publish DraftPublishResult := do
  let changes ← atOrigin fun _ => (changesOf blobId input.files).mapError .path
  retry (filesRound objects trees localeLe diff3Merge blobId treeId commitId isIgnored changes
    input) .busy MAX_ATTEMPTS

end

end Publishing

end Catamorphic.Git
