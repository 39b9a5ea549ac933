import Mathlib.Logic.Function.Basic
import Catamorphic.Lib.Runs

/-!
# Provisioned machines

A reconcile pass creates the machines that rules ask for and destroys the others. The server
knows a machine by the enrollment code it was created with until it enrolls, and by its worker's
row from then on; the platform knows it by its name and its reference. Every statement of a pass
is a step, and so is what the platform, a machine or an operator does between two of them. A pass
that lost its claim is stopped by its next fence, and runs on until then.
-/

namespace Catamorphic.Workers.Machines

open Function

/-- A worker's name. -/
abbrev Name := Nat
/-- An enrollment code, known by its hash. -/
abbrev Code := Nat
/-- A platform's id for a machine. -/
abbrev Ref := Nat
abbrev PassId := Nat

/-- A row of `work_worker_enrollments`, issued for a machine rule. -/
structure Enrollment where
  name : Name
  ref : Option Ref := none
  used : Bool := false
  expiresAt : Nat
  deriving DecidableEq

/-- A row of `work_workers`; its key is the name. -/
structure Worker where
  /-- The code its machine enrolled with. -/
  code : Code
  ref : Option Ref
  revoked : Bool := false
  destroyed : Bool := false
  deriving DecidableEq

inductive Standing
  /-- It is asked for, and may still be created. -/
  | asked
  | there
  | gone
  deriving DecidableEq

/-- What a platform was asked to create. -/
structure Machine where
  name : Name
  standing : Standing
  deriving DecidableEq

/-- A platform gives each machine it creates a reference. -/
structure Platform where
  ref : Code → Ref

inductive MachineState
  | enrolled
  | pending
  | expired
  | revoked
  deriving DecidableEq

/-- A machine as `machines` lists it. -/
structure ProvisionedMachine where
  name : Name
  ref : Option Ref
  state : MachineState
  deriving DecidableEq

/-- What a pass has left to do for one name. -/
structure Work where
  /-- The rules ask for a machine of the name. -/
  wanted : Bool
  machines : List ProvisionedMachine
  rest : List ProvisionedMachine
  /-- A machine of the name is still to be destroyed. -/
  pendingDestroy : Bool := false
  deriving DecidableEq

/-- The next step of a pass for a name. -/
inductive Phase
  /-- `machines` reads the workers and the enrollments, in either order. -/
  | listing (wanted : Bool) (workers enrollments : Option (List ProvisionedMachine))
  | settling (work : Work)
  | draining (machine : ProvisionedMachine) (work : Work)
  | expiring (machine : ProvisionedMachine) (work : Work)
  | unprovisioning (machine : ProvisionedMachine) (work : Work)
  /-- `forgetMachine`: the worker's row, then the codes. -/
  | forgetting (work : Work)
  | canceling (work : Work)
  /-- `createMachineEnrollment` takes the lock of the name and looks for a worker. -/
  | issuing
  /-- It looks for a code that waits. -/
  | checking
  | inserting
  | provisioning (code : Code)
  /-- The platform is asked, and its answer awaited. -/
  | awaiting (code : Code)
  /-- `recordMachineRef`: the code's row, then the worker's. -/
  | recording (code : Code)
  | recordingWorker (code : Code)
  /-- The platform refused, and the codes of the name are withdrawn. -/
  | refused (code : Code)
  deriving DecidableEq

structure Pass where
  name : Name
  phase : Phase
  deriving DecidableEq

structure World where
  now : Nat
  enrollments : Code → Option Enrollment
  workers : Name → Option Worker
  /-- What the platform made of each code. -/
  machines : Code → Option Machine
  passes : PassId → Option Pass
  nextCode : Code
  nextPass : PassId
  /-- The name that a code was issued for. -/
  issued : Code → Option Name
  /-- The reference of the code's machine was recorded. -/
  recorded : Code → Bool

def empty (now : Nat) : World where
  now := now
  enrollments := fun _ => none
  workers := fun _ => none
  machines := fun _ => none
  passes := fun _ => none
  nextCode := 0
  nextPass := 0
  issued := fun _ => none
  recorded := fun _ => false

/-! ## Updates -/

def World.goesOn (w : World) (id : PassId) (name : Name) (phase : Phase) : World :=
  { w with passes := update w.passes id (some ⟨name, phase⟩) }

def World.ends (w : World) (id : PassId) : World :=
  { w with passes := update w.passes id none }

/-- `revoke`, and the end of `drain`. -/
def World.revoke (w : World) (name : Name) : World :=
  { w with
    workers := fun other => (w.workers other).map fun row =>
      if other = name ∧ !row.revoked then { row with revoked := true } else row }

/-- `expireEnrollments` -/
def World.expireEnrollments (w : World) (name : Name) : World :=
  { w with
    enrollments := fun code => (w.enrollments code).map fun row =>
      if row.name = name ∧ !row.used ∧ w.now < row.expiresAt then { row with expiresAt := w.now }
      else row }

/-- `cancelEnrollments` -/
def World.cancelEnrollments (w : World) (name : Name) : World :=
  { w with
    enrollments := fun code => (w.enrollments code).filter fun row => row.name ≠ name || row.used }

/-- The first statement of `forgetMachine`. -/
def World.forget (w : World) (name : Name) : World :=
  { w with
    workers := fun other => (w.workers other).map fun row =>
      if other = name ∧ row.revoked ∧ !row.destroyed then { row with destroyed := true } else row }

def World.insert (w : World) (name : Name) (expiresAt : Nat) : World :=
  { w with
    enrollments := update w.enrollments w.nextCode (some { name, expiresAt })
    issued := update w.issued w.nextCode (some name)
    nextCode := w.nextCode + 1 }

def World.setMachine (w : World) (code : Code) (machine : Option Machine) : World :=
  { w with machines := update w.machines code machine }

/-- The platform destroys the machine of the reference and every machine of the name. -/
def World.destroy (platform : Platform) (w : World) (name : Name) (ref : Option Ref) : World :=
  { w with
    machines := fun code => (w.machines code).map fun machine =>
      if machine.name = name ∨ ref = some (platform.ref code) then
        { machine with standing := .gone }
      else machine }

/-- The statement that `recordMachineRef` updates the code with. -/
def World.recordRef (w : World) (code : Code) (ref : Ref) : World :=
  { w with
    enrollments := update w.enrollments code
      ((w.enrollments code).map fun row => { row with ref := some ref }) }

/-- The statement that `recordMachineRef` updates the worker with. -/
def World.recordWorkerRef (w : World) (name : Name) (ref : Ref) : World :=
  { w with
    workers := update w.workers name ((w.workers name).map fun row =>
      if !row.revoked ∧ row.ref = none then { row with ref := some ref } else row) }

def World.setRecorded (w : World) (code : Code) : World :=
  { w with recorded := update w.recorded code true }

/-- `enroll`, with the code's row and its new worker. -/
def World.enroll (w : World) (code : Code) (row : Enrollment) : World :=
  { w with
    enrollments := update w.enrollments code (some { row with used := true })
    workers := update w.workers row.name (some { code, ref := row.ref }) }

/-! ## Steps -/

/-- The workers of a name that `machines` lists. -/
def World.listWorkers (w : World) (name : Name) : List ProvisionedMachine :=
  match (w.workers name).filter fun row => !row.destroyed with
  | none => []
  | some row => [{ name, ref := row.ref, state := if row.revoked then .revoked else .enrolled }]

/-- The codes of a name that `machines` lists. -/
def World.listEnrollments (w : World) (name : Name) : List ProvisionedMachine :=
  (List.range w.nextCode).filterMap fun code =>
    ((w.enrollments code).filter fun row => row.name = name && !row.used).map fun row =>
      { name, ref := row.ref, state := if row.expiresAt ≤ w.now then .expired else .pending }

/-- An unused code of the name. -/
def World.waiting (w : World) (name : Name) : Bool :=
  (List.range w.nextCode).any fun code =>
    (w.enrollments code).any fun row => row.name = name && !row.used

/-- Some pass for the name is in such a phase. -/
def World.anyPass (w : World) (name : Name) (which : Phase → Bool) : Bool :=
  (List.range w.nextPass).any fun id =>
    (w.passes id).any fun pass => pass.name = name && which pass.phase

/-- It holds the lock of `createMachineEnrollment`. -/
def Phase.locks : Phase → Bool
  | .checking => true
  | .inserting => true
  | _ => false

/-- What a pass does for the next machine of the name, or for the name when there is none. -/
def World.settle (w : World) (id : PassId) (name : Name) (work : Work) (retained : Bool) : World :=
  match work.rest with
  | [] =>
    if !work.wanted || work.pendingDestroy then w.ends id
    else if work.machines.any fun machine =>
        machine.state = .enrolled || machine.state = .pending then w.ends id
    else w.goesOn id name .issuing
  | machine :: rest =>
    let work := { work with rest }
    match machine.state with
    | .enrolled =>
      if work.wanted || retained then w.goesOn id name (.settling work)
      else w.goesOn id name (.draining machine work)
    | .pending =>
      if work.wanted then w.goesOn id name (.settling work)
      else w.goesOn id name (.expiring machine work)
    | .expired => w.goesOn id name (.unprovisioning machine work)
    | .revoked => w.goesOn id name (.unprovisioning machine work)

/-- A pass's next step; `answer` is what it is told, or which of two tables answers first. -/
def World.proceed (platform : Platform) (ttl : Nat) (w : World) (id : PassId) (answer : Bool)
    (name : Name) : Phase → Option World
  | .listing wanted workers enrollments =>
    let workers := if answer then workers <|> some (w.listWorkers name) else workers
    let enrollments := if answer then enrollments
      else enrollments <|> some (w.listEnrollments name)
    match workers, enrollments with
    | some workers, some enrollments =>
      let machines := workers ++ enrollments
      some (w.goesOn id name (.settling { wanted, machines, rest := machines }))
    | _, _ => some (w.goesOn id name (.listing wanted workers enrollments))
  | .settling work => some (w.settle id name work answer)
  | .draining machine work =>
    -- It is kept while work is on it.
    if answer && (w.workers name).any fun row => !row.revoked then
      some ((w.revoke name).goesOn id name (.expiring machine work))
    else some (w.goesOn id name (.settling work))
  | .expiring machine work =>
    some ((w.expireEnrollments name).goesOn id name (.unprovisioning machine work))
  | .unprovisioning machine work =>
    if answer then
      some ((w.destroy platform name machine.ref).goesOn id name (.forgetting work))
    else some (w.goesOn id name (.settling { work with pendingDestroy := true }))
  | .forgetting work => some ((w.forget name).goesOn id name (.canceling work))
  | .canceling work => some ((w.cancelEnrollments name).goesOn id name (.settling work))
  | .issuing =>
    if w.anyPass name Phase.locks then none
    else if (w.workers name).any fun row => !row.revoked then some (w.ends id)
    else some (w.goesOn id name .checking)
  | .checking => some (if w.waiting name then w.ends id else w.goesOn id name .inserting)
  | .inserting =>
    some ((w.insert name (w.now + ttl)).goesOn id name (.provisioning w.nextCode))
  | .provisioning code =>
    some ((w.setMachine code (some ⟨name, .asked⟩)).goesOn id name (.awaiting code))
  | .awaiting code =>
    match w.machines code with
    | none => none
    | some machine =>
      if answer then
        if machine.standing = .asked then none else some (w.goesOn id name (.recording code))
      else if machine.standing = .asked then
        some ((w.setMachine code none).goesOn id name (.refused code))
      else none
  | .recording code =>
    let w' := w.recordRef code (platform.ref code)
    if (w.enrollments code).any fun row => row.used then
      some (w'.goesOn id name (.recordingWorker code))
    else some ((w'.setRecorded code).ends id)
  | .recordingWorker code =>
    some (((w.recordWorkerRef name (platform.ref code)).setRecorded code).ends id)
  | .refused _ => some ((w.cancelEnrollments name).ends id)

/-- A statement or a call of the pass fails; it goes on with the next machine. -/
def World.fail (w : World) (id : PassId) (name : Name) : Phase → World
  | .draining _ work | .expiring _ work | .unprovisioning _ work | .forgetting work
  | .canceling work => w.goesOn id name (.settling { work with pendingDestroy := true })
  | _ => w.ends id

inductive Action
  | tick (now : Nat)
  /-- A pass comes to the machines of a name. -/
  | pass (name : Name) (wanted : Bool)
  | proceed (pass : PassId) (answer : Bool)
  | fail (pass : PassId)
  /-- A fence finds that the claim moved, or the replica stops. -/
  | stop (pass : PassId)
  /-- The platform creates what it was asked for. -/
  | create (code : Code)
  /-- A machine is gone. -/
  | vanish (code : Code)
  /-- A machine exchanges its code. -/
  | enroll (code : Code)
  /-- The operator ends a worker's authority. -/
  | revoke (name : Name)

def step (platform : Platform) (ttl : Nat) (w : World) : Action → Option World
  | .tick now => if w.now ≤ now then some { w with now } else none
  | .pass name wanted =>
    some ({ w with nextPass := w.nextPass + 1 }.goesOn w.nextPass name
      (.listing wanted none none))
  | .proceed id answer =>
    (w.passes id).bind fun pass => w.proceed platform ttl id answer pass.name pass.phase
  | .fail id => (w.passes id).map fun pass => w.fail id pass.name pass.phase
  | .stop id => (w.passes id).map fun _ => w.ends id
  | .create code =>
    match w.machines code with
    | none => none
    | some machine =>
      if machine.standing = .asked then
        some (w.setMachine code (some { machine with standing := .there }))
      else none
  | .vanish code =>
    match w.machines code with
    | none => none
    | some machine =>
      if machine.standing = .there then
        some (w.setMachine code (some { machine with standing := .gone }))
      else none
  | .enroll code =>
    match w.enrollments code with
    | none => none
    | some row =>
      -- A row of the name that is not revoked makes the insert fail.
      if (w.machines code).any (fun machine => machine.standing = .there) && !row.used &&
          decide (w.now < row.expiresAt) &&
          (w.workers row.name).all (fun worker => worker.revoked) then
        some (w.enroll code row)
      else none
  | .revoke name => some (w.revoke name)

end Catamorphic.Workers.Machines
