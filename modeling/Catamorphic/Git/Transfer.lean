import Catamorphic.Git.Objects
import Catamorphic.Lib.Runs
import Catamorphic.Lib.Traversal

/-!
# Moving history between a checkout and an origin

`push` and `fetchRemote` copy every object reachable from a commit into the other store
and then publish the commit under a ref. The copy is breadth first: the objects of one
level are visited at once, a level ends when all of them are answered, and one failed
visit fails the transfer while the others run on. A visit takes an object the sink
already has as the end of its branch.

Stores only gain objects here, from transfers and from whatever else writes to them.
-/

namespace Catamorphic.Git

open Runs Traversal

/-- A store of either side, as far as the transfer reads it. -/
structure Repo where
  objects : List Sha
  /-- Branches: `refs/heads/<branch>`. -/
  heads : List (String × Sha)
  /-- What a checkout knows of its origin: `refs/work/published/<branch>`. -/
  published : List (String × Sha)
  /-- The tip of the branch that is checked out. -/
  head : Sha
deriving DecidableEq, Repr

def Repo.has (r : Repo) (sha : Sha) : Prop := sha ∈ r.objects

instance (r : Repo) (sha : Sha) : Decidable (r.has sha) := inferInstanceAs (Decidable (_ ∈ _))

def Repo.store (r : Repo) (sha : Sha) : Repo := { r with objects := sha :: r.objects }

/-- A ref's new value, ahead of any older one. -/
def setRef (refs : List (String × Sha)) (ref : String) (sha : Sha) : List (String × Sha) :=
  (ref, sha) :: refs.filter (fun p => p.1 ≠ ref)

/-! ## One transfer -/

/--
`transferCommits` while it runs. The visits of a level are answered in any order;
`found` collects the references they return.
-/
structure Transfer where
  seen : List Sha
  /-- Visits of this level that have not asked the sink yet. -/
  waiting : List Sha
  /-- Visits the sink answered with no: to be read and written. -/
  missing : List Sha
  found : List Sha
  /-- A visit failed: the level will not be left, its other visits run on. -/
  failed : Bool
deriving DecidableEq, Repr

namespace Transfer

/-- The first level is the commit itself. -/
def start (sha : Sha) : Transfer :=
  { seen := [sha], waiting := [sha], missing := [], found := [], failed := false }

/-- `if (await opts.sink.hasObject(sha)) return []` -/
def ask (t : Transfer) (sha : Sha) (has : Bool) : Transfer :=
  if has then { t with waiting := t.waiting.erase sha }
  else { t with waiting := t.waiting.erase sha, missing := sha :: t.missing }

/-- The object was read and written; its references are to be visited next. -/
def copied (t : Transfer) (sha : Sha) (refs : List Sha) : Transfer :=
  { t with missing := t.missing.erase sha, found := t.found ++ refs }

/-- A visit threw. -/
def broke (t : Transfer) (sha : Sha) : Transfer :=
  { t with waiting := t.waiting.erase sha, missing := t.missing.erase sha, failed := true }

/-- Every visit of the level is answered and none failed. -/
def levelDone (t : Transfer) : Bool := !t.failed && t.waiting.isEmpty && t.missing.isEmpty

/-- The next level: what was found and not seen before, each once. -/
def nextLevel (t : Transfer) : Transfer :=
  let batch := t.found.eraseDups.filter (fun sha => sha ∉ t.seen)
  { seen := t.seen ++ batch, waiting := batch, missing := [], found := [], failed := false }

end Transfer

/-! ## Calls of push and fetchRemote -/

inductive Direction where
  | push
  | fetchRemote
deriving DecidableEq, Repr

inductive Phase where
  | transferring (t : Transfer)
  /-- Objects are moved; `updateRef` comes next. -/
  | updatingRef
  /-- `syncRemoteTrackingRef` comes next. -/
  | tracking
  | returned
  | failed
deriving DecidableEq, Repr

structure Call where
  direction : Direction
  dev : Nat
  origin : Nat
  branch : String
  sha : Sha
  /-- What a push read of the branch before it moved anything. -/
  expected : Option Sha
  phase : Phase
deriving DecidableEq, Repr

def Call.source (c : Call) : Nat :=
  match c.direction with
  | .push => c.dev
  | .fetchRemote => c.origin

def Call.sink (c : Call) : Nat :=
  match c.direction with
  | .push => c.origin
  | .fetchRemote => c.dev

/-- Every store, and the calls made so far. -/
structure World where
  repos : Nat → Repo
  calls : List Call

def World.setRepo (w : World) (i : Nat) (r : Repo) : World :=
  { w with repos := fun j => if j = i then r else w.repos j }

def World.setPhase (w : World) (i : Nat) (c : Call) (phase : Phase) : World :=
  { w with calls := w.calls.set i { c with phase } }

inductive Event where
  /-- `push`, with or without an explicit `localSha`. -/
  | push (dev origin : Nat) (branch : String) (localSha : Option Sha) (force : Bool)
  | fetchRemote (dev origin : Nat) (branch : String)
  /-- A visit asks the sink. -/
  | ask (call : Nat) (sha : Sha)
  /-- A visit reads the object from the source and writes it to the sink. -/
  | copy (call : Nat) (sha : Sha)
  /-- A visit fails; `landed` says that its write was done all the same. -/
  | fail (call : Nat) (sha : Sha) (landed : Bool)
  /-- A level ends: the next one starts, or the transfer returns. -/
  | advance (call : Nat)
  | updateRef (call : Nat)
  | track (call : Nat)
  /-- A call fails in its ref update. -/
  | abandon (call : Nat)
  /-- Someone else writes an object into a store. -/
  | store (repo : Nat) (sha : Sha)
  /-- Someone else moves a branch or a checkout. -/
  | move (repo : Nat) (branch : String) (sha : Sha)
deriving DecidableEq, Repr

section Step

-- The object each id stands for, and Git's own walk over a checkout's history.
variable (objects : Sha → GitObject) (inHistory : Repo → Sha → Sha → Bool)

def isAncestor (dev : Repo) (ancestor descendant : Sha) : Bool :=
  ancestor == descendant || inHistory dev ancestor descendant

/-- Where a transfer goes on when a level has ended. -/
def Call.afterTransfer (c : Call) : Phase :=
  match c.direction with
  | .push => .updatingRef
  | .fetchRemote => .tracking

/-- The call `i` and its transfer, while it runs. -/
def World.transfer (w : World) (i : Nat) : Option (Call × Transfer) :=
  match w.calls[i]? with
  | some c => match c.phase with
      | .transferring t => some (c, t)
      | _ => none
  | none => none

/-- The start of a `push`: refused, answered at once, or moving objects. -/
def beginPush (w : World) (dev origin : Nat) (branch : String) (localSha : Option Sha)
    (force : Bool) : Option World :=
  let sha := localSha.getD (w.repos dev).head
  let currentRemote := (w.repos origin).heads.lookup branch
  let call (phase : Phase) : World :=
    { w with calls := w.calls ++ [⟨.push, dev, origin, branch, sha, currentRemote, phase⟩] }
  match currentRemote with
  | none => some (call (.transferring (.start sha)))
  | some current =>
    if current = sha then some (call .returned)
    else if !force && !isAncestor inHistory (w.repos dev) current sha then some (call .failed)
    else some (call (.transferring (.start sha)))

/-- The start of a `fetchRemote`: a commit the checkout has is not transferred. -/
def beginFetch (w : World) (dev origin : Nat) (branch : String) : Option World :=
  match (w.repos origin).heads.lookup branch with
  | none => some w
  | some sha =>
    let phase : Phase :=
      if (w.repos dev).has sha then .tracking else .transferring (.start sha)
    some { w with calls := w.calls ++ [⟨.fetchRemote, dev, origin, branch, sha, none, phase⟩] }

def step (w : World) : Event → Option World
  | .push dev origin branch localSha force =>
    beginPush inHistory w dev origin branch localSha force
  | .fetchRemote dev origin branch => beginFetch w dev origin branch
  | .ask i sha => do
    let (c, t) ← w.transfer i
    if sha ∈ t.waiting then
      some (w.setPhase i c (.transferring (t.ask sha (decide ((w.repos c.sink).has sha)))))
    else none
  | .copy i sha => do
    let (c, t) ← w.transfer i
    if sha ∈ t.missing ∧ (w.repos c.source).has sha then
      some ((w.setRepo c.sink ((w.repos c.sink).store sha)).setPhase i c
        (.transferring (t.copied sha (references (objects sha)))))
    else none
  | .fail i sha landed => do
    let (c, t) ← w.transfer i
    if landed then
      if sha ∈ t.missing ∧ (w.repos c.source).has sha then
        some ((w.setRepo c.sink ((w.repos c.sink).store sha)).setPhase i c
          (.transferring (t.broke sha)))
      else none
    else if sha ∈ t.waiting ∨ sha ∈ t.missing then
      some (w.setPhase i c (.transferring (t.broke sha)))
    else none
  | .advance i => do
    let (c, t) ← w.transfer i
    if t.levelDone then
      some (w.setPhase i c
        (if t.found.isEmpty then c.afterTransfer else .transferring t.nextLevel))
    else none
  | .updateRef i => do
    let c ← w.calls[i]?
    let origin := w.repos c.origin
    if c.phase = .updatingRef ∧ origin.heads.lookup c.branch = c.expected then
      some ((w.setRepo c.origin { origin with heads := setRef origin.heads c.branch c.sha
        }).setPhase
        i c .tracking)
    else none
  | .track i => do
    let c ← w.calls[i]?
    let dev := w.repos c.dev
    if c.phase = .tracking then
      some ((w.setRepo c.dev
        { dev with published := setRef dev.published c.branch c.sha }).setPhase i c .returned)
    else none
  | .abandon i => do
    let c ← w.calls[i]?
    if c.phase = .updatingRef ∨ c.phase = .tracking then some (w.setPhase i c .failed) else none
  | .store i sha => some (w.setRepo i ((w.repos i).store sha))
  | .move i branch sha =>
    some (w.setRepo i
      { w.repos i with heads := setRef (w.repos i).heads branch sha, head := sha })

end Step

end Catamorphic.Git
