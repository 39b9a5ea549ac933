import Catamorphic.Git.OriginObjects

/-!
# Following an origin's history

Commits are followed from tips to parents, newest first: to compare two of them, to find out
whether one is reached from others, and to list them.
-/

namespace Catamorphic.Git.OriginObjects

open Asks

variable {σ : Type} (objects : Sha → GitObject)

/-! ## Comparing two commits -/

/-- Seen from the one commit, from the other, from both. -/
def LEFT : Nat := 1
def RIGHT : Nat := 2
def BOTH : Nat := 3

/-- `flags`, `times` and `parents` of one commit. -/
structure Mark where
  oid : Sha
  flag : Nat
  time : Nat
  parents : List Sha

structure Comparing where
  marks : List Mark
  queue : List Sha

def Comparing.mark (st : Comparing) (oid : Sha) : Option Mark :=
  st.marks.find? fun mark => mark.oid = oid

def Comparing.flagOf (st : Comparing) (oid : Sha) : Nat := (st.mark oid).elim 0 Mark.flag

def Comparing.timeOf (st : Comparing) (oid : Sha) : Nat := (st.mark oid).elim 0 Mark.time

def Comparing.parentsOf (st : Comparing) (oid : Sha) : List Sha :=
  (st.mark oid).elim [] Mark.parents

/-- `push(oid, flag)` -/
def push (flag : Nat) (st : Comparing) (oid : Sha) : Read σ Comparing := do
  match st.mark oid with
  | some mark =>
    let next := mark.flag ||| flag
    if next = mark.flag then return st
    else
      return {
        marks := st.marks.map fun mark =>
          if mark.oid = oid then { mark with flag := next } else mark
        queue := st.queue ++ [oid] }
  | none =>
    let commit ← commit objects oid
    return {
      marks := st.marks ++ [⟨oid, flag, commit.author.timestamp, commit.parents⟩]
      queue := st.queue ++ [oid] }

/-- The walk goes on while something in the queue is not seen from both, so many steps at most. -/
def comparing (steps : Nat) (st : Comparing) : Read σ Comparing := do
  if st.queue.any fun oid => st.flagOf oid ≠ BOTH then
    match steps with
    | 0 => throw .tooFarApart
    | steps + 1 =>
      let queue := st.queue.mergeSort fun a b => st.timeOf a ≤ st.timeOf b
      match queue.getLast? with
      | none => return st
      | some oid =>
        let st' ← (st.parentsOf oid).foldlM (push objects (st.flagOf oid))
          { st with queue := queue.dropLast }
        comparing steps st'
  else return st

/--
The marked commits that `stack` (its top first) leads to. A round takes one id off the stack,
and a commit puts its parents there once.
-/
def beneathFrom (st : Comparing) : Nat → List Sha → List Sha → List Sha
  | 0, _, beneath => beneath
  | _ + 1, [], beneath => beneath
  | rounds + 1, ancestor :: stack, beneath =>
    if ancestor = [] ∨ ancestor ∈ beneath ∨ st.mark ancestor = none then
      beneathFrom st rounds stack beneath
    else
      beneathFrom st rounds ((st.parentsOf ancestor).reverse ++ stack) (beneath ++ [ancestor])

structure Compared where
  base : Option Sha
  ahead : Nat
  behind : Nat
  deriving DecidableEq

/-- The counts and the best common commit, from what the walk has marked. -/
def Comparing.compared (st : Comparing) : Compared :=
  let common := (st.marks.filter fun mark => mark.flag = BOTH).map Mark.oid
  let edges := (st.marks.map fun mark => mark.parents.length).sum
  let beneath := common.foldl (fun beneath oid =>
    beneathFrom st (2 * edges + 1) (st.parentsOf oid).reverse beneath) []
  let best := (common.filter fun oid => oid ∉ beneath).mergeSort fun a b =>
    st.timeOf b < st.timeOf a || (st.timeOf b = st.timeOf a && a < b)
  { base := best.head?
    ahead := (st.marks.filter fun mark => mark.flag = LEFT).length
    behind := (st.marks.filter fun mark => mark.flag = RIGHT).length }

def compare (left right : Sha) : Read σ Compared := do
  if left = right then return ⟨some left, 0, 0⟩
  else
    let st ← push objects LEFT ⟨[], []⟩ left
    let st ← push objects RIGHT st right
    let st ← comparing objects 100000 st
    return st.compared

/-! ## Whether a commit is reached -/

structure Walk where
  seen : List Sha
  queue : List (Sha × Nat)

/-- `commit(sha).catch(() => null)` -/
def commitOrNull (sha : Sha) : Read σ (Option CommitText) :=
  tryCatch (some <$> commit objects sha) fun _ => return none

def enqueue (walk : Walk) (sha : Sha) : Read σ Walk := do
  if sha ∈ walk.seen then return walk
  else
    match ← commitOrNull objects sha with
    | none => return { walk with seen := walk.seen ++ [sha] }
    | some commit =>
      return ⟨walk.seen ++ [sha], walk.queue ++ [(sha, commit.author.timestamp)]⟩

/--
A round takes a commit off the queue. Those that were taken were all seen, so no round
follows on as many as may be seen.
-/
def reaching (sha : Sha) (floor : Int) (limit : Nat) : Nat → Walk → Read σ Bool
  | 0, _ => return false
  | rounds + 1, walk => do
    if limit < walk.seen.length then return false
    else
      let queue := walk.queue.mergeSort fun a b => a.2 ≤ b.2
      match queue.getLast? with
      | none => return false
      | some next =>
        if next.1 = sha then return true
        else if (next.2 : Int) < floor then
          reaching sha floor limit rounds { walk with queue := queue.dropLast }
        else
          let commit ← commit objects next.1
          let walk ← commit.parents.foldlM (enqueue objects)
            { walk with queue := queue.dropLast }
          reaching sha floor limit rounds walk

def isReachable (sha : Sha) (tips : List Sha) (limit : Nat) : Read σ Bool := do
  match ← tryCatch (some <$> read objects sha) fun _ => return none with
  | none => return false
  | some object =>
    if object.type ≠ .commit then return false
    else
      let floor : Int := (parseCommitText object.data).author.timestamp - 86400
      let walk ← tips.foldlM (enqueue objects) ⟨[], []⟩
      reaching objects sha floor limit (limit + 1) walk

end Catamorphic.Git.OriginObjects
