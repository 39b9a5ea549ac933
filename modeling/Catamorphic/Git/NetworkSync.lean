import Catamorphic.Git.Objects
import Catamorphic.Lib.History
import Catamorphic.Lib.Runs

/-!
# Synchronizing a checkout with a network remote

A checkout converges with a branch of a network remote: a status is read, a decision is taken
from it, and then branches are moved and files written. Commits, edits and other people's
pushes go on between any two awaits of the synchronization. The code host is a URL; what git
does with a merge that is not a fast-forward is git's, and so is whether an await fails.
-/

namespace Catamorphic.Git.NetworkSync

open Runs History Function

/-! ## The one push rule -/

inductive RemoteOwnership
  | owned
  | attached
  deriving DecidableEq

/-- `MANAGED_BRANCH_PREFIX`. -/
def managedBranchPrefix : String := "work/"

/-- Whether `branch` is one Work creates: `work/<something>`. -/
def isManagedBranch (branch : String) : Bool :=
  branch.startsWith managedBranchPrefix && managedBranchPrefix.length < branch.length

/-- `/[:\s+]|^-|^refs\/heads\//` does not match, and there is a name. -/
def isPlainName (name : String) : Bool :=
  name ≠ "" && !name.toList.any (fun c => c = ':' || Text.isSpace c || c = '+') &&
    !name.startsWith "-" && !name.startsWith "refs/heads/"

def assertPushAllowed (ownership : RemoteOwnership) (remoteBranch : String) (force : Bool) : Bool :=
  ownership = .owned || (isManagedBranch remoteBranch && !force)

/-- `pushToRemote` sends the push: it is not refused. -/
def mayPush (ownership : RemoteOwnership) (ref remoteBranch : String) (force : Bool) : Bool :=
  isPlainName ref && isPlainName remoteBranch && assertPushAllowed ownership remoteBranch force

/-! ## The checkout -/

structure Commit (Tree : Type) where
  tree : Tree
  parents : List Sha

/-- A moment of the clock, in UTC. -/
structure Moment where
  year : Nat
  month : Nat
  day : Nat
  hours : Nat
  minutes : Nat

def pad (n : Nat) : String := (if n < 10 then "0" else "") ++ toString n

/-- `work/diverged-YYYY-MM-DD_HH-mm` -/
def rescueBranchName (now : Moment) : String :=
  managedBranchPrefix ++ "diverged-" ++ toString now.year ++ "-" ++ pad now.month ++ "-" ++
    pad now.day ++ "_" ++ pad now.hours ++ "-" ++ pad now.minutes

/-- What `syncWithNetworkRemote` is called with. -/
structure Options where
  /-- `dev instanceof NativeProjectRepo`. -/
  native : Bool
  remoteBranch : String
  ownership : RemoteOwnership
  now : Moment

/-- Where a synchronization stands, with what it has read. -/
inductive Point
  | started
  /-- `main` is the current branch. -/
  | onMain
  | located (localSha : Sha)
  | fetched (localSha : Sha) (remoteSha : Option Sha)
  /-- The status is next: the remote is strictly ahead, or the histories diverged. -/
  | checking (localSha remoteSha : Sha) (behind : Bool)
  /-- The tree was clean, after so many edits: `main` is forced to the remote's commit. -/
  | forcing (localSha remoteSha : Sha) (edits : Nat)
  /-- `git.merge` is called. -/
  | merging (remoteSha : Sha) (edits : Nat)
  /-- It has read `main`, and will write it. -/
  | joining (ours remoteSha : Sha) (edits : Nat)
  /-- `main` is checked out by force; what was merged is pushed then. -/
  | checkingOut (edits : Nat) (merged : Bool)
  | pushing (ref remoteBranch : String)
  | nativeLocated (localSha : Sha) (target : String)
  | nativeFetched (localSha : Sha) (target : String) (remoteSha : Option Sha)
  | nativeChecking (localSha remoteSha : Sha)
  /-- `git merge --ff-only`. -/
  | nativeMerging (remoteSha : Sha) (edits : Nat)

structure World (Tree : Type) where
  /-- The commits there are, of the checkout and of the remote. -/
  commits : Sha → Option (Commit Tree)
  /-- The branch that is checked out; `HEAD` where none is. -/
  branch : String
  /-- `refs/heads/*` -/
  refs : String → Option Sha
  /-- `branch.<name>.merge`, as a branch name. -/
  upstream : String → Option String
  /-- The working tree. -/
  work : Tree
  /-- The committed tree it was last known to be: checked out, committed, or found clean. -/
  baseline : Tree
  /-- How many edits the working tree has had. -/
  edits : Nat
  /-- The branches of the remote. -/
  remote : String → Option Sha
  /-- What was pushed, to a remote of which kind. -/
  pushed : List (RemoteOwnership × String)
  sync : Option (Options × Point)

variable {Tree : Type} [DecidableEq Tree]

def parentsOf (commits : Sha → Option (Commit Tree)) (sha : Sha) : List Sha :=
  (commits sha).elim [] Commit.parents

def World.treeOf (w : World Tree) (sha : Sha) : Option Tree := (w.commits sha).map Commit.tree

/-- `status().dirty`: the working tree is not what the checked out commit has. -/
def World.dirty (w : World Tree) : Bool :=
  (w.refs w.branch).bind w.treeOf ≠ some w.work

def World.at (w : World Tree) (opts : Options) (point : Point) : World Tree :=
  { w with sync := some (opts, point) }

/-- The synchronization ends, with a result or an error. -/
def World.done (w : World Tree) : World Tree := { w with sync := none }

/-! ## One step of a synchronization -/

-- `git.isDescendent` with `depth: -1`; an error counts as no.
variable (isDescendent : (Sha → Option (Commit Tree)) → Sha → Sha → Bool)

/-- What follows from the two commits, before the status is read. -/
def compareTips (w : World Tree) (opts : Options) (localSha : Sha) (remoteSha : Option Sha) :
    World Tree :=
  match remoteSha with
  | none =>
    if opts.ownership ≠ .owned then w.done else w.at opts (.pushing "main" opts.remoteBranch)
  | some remoteSha =>
    if remoteSha = localSha then w.done
    else if isDescendent w.commits localSha remoteSha then
      if opts.ownership ≠ .owned then w.done else w.at opts (.pushing "main" opts.remoteBranch)
    else
      let behind := isDescendent w.commits remoteSha localSha
      if !behind && opts.ownership ≠ .owned then w.done
      else w.at opts (.checking localSha remoteSha behind)

/-- The same for a native checkout, whose diverged histories are only reported. -/
def compareTipsNative (w : World Tree) (opts : Options) (localSha : Sha) (target : String)
    (remoteSha : Option Sha) : World Tree :=
  let push := if opts.ownership ≠ .owned then w.done else w.at opts (.pushing w.branch target)
  match remoteSha with
  | none => push
  | some remoteSha =>
    if remoteSha = localSha then w.done
    else if isDescendent w.commits localSha remoteSha then push
    else if !isDescendent w.commits remoteSha localSha then w.done
    else w.at opts (.nativeChecking localSha remoteSha)

/-- The tree was found as the checked out commit has it. -/
def World.foundClean (w : World Tree) : World Tree := { w with baseline := w.work }

/-- `git.checkout` by force. -/
def World.checkOut (w : World Tree) (tree : Tree) : World Tree :=
  { w with work := tree, baseline := tree }

/-- The synchronization goes on from where it stands. -/
def advance (w : World Tree) (opts : Options) : Point → Option (World Tree)
  | .started =>
    if opts.native then
      if w.branch = "HEAD" then some w.done
      else
        match w.refs w.branch with
        | none => some w.done
        | some localSha =>
          some (w.at opts (.nativeLocated localSha ((w.upstream w.branch).getD w.branch)))
    else if w.branch ≠ "main" then some w.done
    else some (w.at opts .onMain)
  | .onMain =>
    match w.refs "main" with
    | none => some w.done
    | some localSha => some (w.at opts (.located localSha))
  | .located localSha => some (w.at opts (.fetched localSha (w.remote opts.remoteBranch)))
  | .fetched localSha remoteSha => some (compareTips isDescendent w opts localSha remoteSha)
  | .checking localSha remoteSha behind =>
    if w.dirty then some w.done
    else if behind then some (w.foundClean.at opts (.forcing localSha remoteSha w.edits))
    else some (w.foundClean.at opts (.merging remoteSha w.edits))
  | .forcing _ remoteSha edits =>
    some ({ w with refs := update w.refs "main" (some remoteSha) }.at opts
      (.checkingOut edits false))
  | .merging remoteSha edits =>
    match w.refs "main" with
    | none => some w.done
    | some ours => some (w.at opts (.joining ours remoteSha edits))
  -- What it writes is git's: `mergeAs`.
  | .joining .. => none
  | .checkingOut _ merged =>
    match (w.refs "main").bind w.treeOf with
    | none => some w.done
    | some tree =>
      if merged then some ((w.checkOut tree).at opts (.pushing "main" opts.remoteBranch))
      else some (w.checkOut tree).done
  | .pushing ref remoteBranch =>
    if mayPush opts.ownership ref remoteBranch false then
      some { w.done with
        remote := update w.remote remoteBranch (w.refs ref)
        pushed := w.pushed ++ [(opts.ownership, remoteBranch)] }
    else some w.done
  | .nativeLocated localSha target =>
    some (w.at opts (.nativeFetched localSha target (w.remote target)))
  | .nativeFetched localSha target remoteSha =>
    some (compareTipsNative isDescendent w opts localSha target remoteSha)
  | .nativeChecking _ remoteSha =>
    if w.dirty then some w.done
    else some (w.foundClean.at opts (.nativeMerging remoteSha w.edits))
  | .nativeMerging remoteSha _ =>
    match w.refs w.branch, w.treeOf remoteSha with
    | some head, some tree =>
      if head = remoteSha ∨ isDescendent w.commits remoteSha head then
        -- Over a tree that has edits again, what it writes is git's: `overlay`.
        if w.dirty then none
        else
          some { (w.checkOut tree).done with
            refs := update w.refs w.branch (some remoteSha) }
      else some w.done
    | _, _ => some w.done

/-- How `git.merge` ends; no merge of the two is left to `fail`. -/
inductive MergeOutcome (Tree : Type)
  /-- One side has the other already. -/
  | contained (sha : Sha)
  | merged (sha : Sha) (tree : Tree)
  | conflict

inductive Action (Tree : Type)
  /-- A commit on the branch that is checked out, after its tip. -/
  | commit (sha : Sha) (commit : Commit Tree)
  | edit (work : Tree)
  /-- Other people's commits, and their pushes to the remote. -/
  | publish (sha : Sha) (commit : Commit Tree)
  | remoteMoves (branch : String) (sha : Option Sha)
  | begin (opts : Options)
  | advance
  | mergeAs (outcome : MergeOutcome Tree)
  /-- `git merge --ff-only` over edits it does not touch. -/
  | overlay (work : Tree)
  /-- What the synchronization awaits fails. -/
  | fail

def step (w : World Tree) : Action Tree → Option (World Tree)
  | .commit sha commit =>
    -- A commit of a tree without changes has that tree.
    if w.commits sha = none ∧ (∀ tip ∈ w.refs w.branch, tip ∈ commit.parents) ∧
        (w.work = w.baseline → commit.tree = w.work) then
      some { w with
        commits := update w.commits sha (some commit)
        refs := update w.refs w.branch (some sha)
        baseline := commit.tree }
    else none
  | .edit work => some { w with work, edits := w.edits + 1 }
  | .publish sha commit =>
    if w.commits sha = none then
      some { w with commits := update w.commits sha (some commit) }
    else none
  | .remoteMoves branch sha => some { w with remote := update w.remote branch sha }
  | .begin opts => if w.sync.isNone then some (w.at opts .started) else none
  | .advance => w.sync.bind fun sync => advance isDescendent w sync.1 sync.2
  | .mergeAs outcome =>
    match w.sync with
    | some (opts, .joining ours remoteSha edits) =>
      match outcome with
      | .contained sha =>
        if (sha = ours ∧ isDescendent w.commits ours remoteSha) ∨
            (sha = remoteSha ∧ isDescendent w.commits remoteSha ours) then
          some ({ w with refs := update w.refs "main" (some sha) }.at opts
            (.checkingOut edits true))
        else none
      | .merged sha tree =>
        if w.commits sha = none then
          some ({ w with
            commits := update w.commits sha (some ⟨tree, [ours, remoteSha]⟩)
            refs := update w.refs "main" (some sha) }.at opts
              (.checkingOut edits true))
        else none
      | .conflict => some (w.at opts (.pushing "main" (rescueBranchName opts.now)))
    | _ => none
  | .overlay work =>
    match w.sync with
    | some (_, .nativeMerging remoteSha _) =>
      if w.dirty ∧ ∃ head ∈ w.refs w.branch,
          head = remoteSha ∨ isDescendent w.commits remoteSha head = true then
        some { w.done with
          work
          refs := update w.refs w.branch (some remoteSha) }
      else none
    | _ => none
  | .fail => if w.sync.isSome then some w.done else none

end Catamorphic.Git.NetworkSync
