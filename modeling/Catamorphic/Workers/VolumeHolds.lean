import Mathlib.Logic.Function.Basic
import Catamorphic.Lib.Runs

/-!
# Holds of exclusive volumes

An exclusive volume is mounted into one sandbox at a time on its machine. The hold is a row
beside the allocation whose sandbox mounts it; the sandbox is made by the machine, some time
after it was asked to, or after its host went away. Every statement and every call of a machine
is a step. A workspace on a managed machine is reached through its allocation, which claims its
one creation; any other provider keeps its own sandboxes.
-/

namespace Catamorphic.Workers.Volumes

open Function

abbrev NodeId := Nat
abbrev VolumeKey := Nat
abbrev AllocationId := Nat
abbrev SandboxId := Nat
abbrev ClaimToken := Nat
/-- A call of a function of a host. -/
abbrev CallId := Nat

/-! ## Rows -/

/-- `EnvironmentSandboxVolume` -/
structure Volume where
  key : VolumeKey
  exclusive : Bool
  deriving DecidableEq

/-- A volume as a sandbox is created with it. -/
structure SandboxVolume where
  key : VolumeKey
  exclusive : Bool
  /-- An empty one that goes away with the sandbox. -/
  temporary : Bool := false
  deriving DecidableEq

/-- A binding's id; a member's runner has `client:<runner id>`. -/
inductive BindingId
  | client (runnerId : Nat)
  | other (id : Nat)
  deriving DecidableEq

/-- The machine of a sandbox, as holds name it. -/
inductive HoldNode
  | worker (id : NodeId)
  | client (runnerId : Nat)
  | binding (id : Nat)
  deriving DecidableEq

/-- What an allocation is created with. -/
structure Terms where
  workerNodeId : Option NodeId
  bindingId : BindingId
  /-- `policy.binding.trust === "managed"` -/
  managed : Bool
  volumes : List Volume
  deriving DecidableEq

/-- A row of `execution_allocations`. -/
structure Allocation where
  terms : Terms
  active : Bool := true
  /-- `capacity_released_at is not null` -/
  capacityReleased : Bool := false
  sandboxCreationStarted : Bool := false
  sandboxProviderId : Option SandboxId := none
  maintenanceClaim : Option ClaimToken := none
  maintenanceClaimedUntil : Nat := 0
  deriving DecidableEq

/-- A sandbox that a machine has. -/
structure Sandbox where
  allocation : AllocationId
  node : HoldNode
  volumes : List SandboxVolume
  deriving DecidableEq

def volumeHoldNode (terms : Terms) : HoldNode :=
  match terms.workerNodeId with
  | some id => .worker id
  | none =>
    match terms.bindingId with
    | .client runnerId => .client runnerId
    | .other id => .binding id

/-- `managedWorkspace` -/
def Terms.managedWorkspace (terms : Terms) : Bool := terms.workerNodeId.isSome && terms.managed

/-- Some volume of it is exclusive. -/
def Terms.exclusive (terms : Terms) : Bool := terms.volumes.any (·.exclusive)

/-- It mounts the persistent volume of the key, and no other sandbox is to. -/
def mounts (volumes : List SandboxVolume) (key : VolumeKey) : Bool :=
  volumes.any fun volume => volume.key = key && volume.exclusive && !volume.temporary

/-! ## Calls -/

/-- Where a call of `createSandbox` is. -/
inductive CreatePhase
  /-- `requireActive`, on a managed machine. -/
  | requested
  /-- The claim of the allocation's one creation. -/
  | claiming
  | retiringHolders
  /-- `holdVolumes` has these left. -/
  | holding (rest : List Volume) (volumes : List SandboxVolume)
  /-- The machine was asked for the sandbox. -/
  | asked (volumes : List SandboxVolume)
  /-- The host is gone, or gave up; the machine may make it yet. -/
  | left (volumes : List SandboxVolume)
  /-- The machine made it, and the host is told. -/
  | made (sandbox : SandboxId)
  deriving DecidableEq

structure Create where
  allocation : AllocationId
  phase : CreatePhase
  deriving DecidableEq

/-- Where a call of `retireAllocation` is. -/
inductive RetirePhase
  /-- It has read the row. -/
  | selected (started : Bool) (sandbox : Option SandboxId)
  | destroying (claim : ClaimToken) (sandbox : Option SandboxId)
  /-- The sandbox is destroyed; the capacity is released next. -/
  | releasing (claim : ClaimToken)
  deriving DecidableEq

structure Retire where
  allocation : AllocationId
  phase : RetirePhase
  deriving DecidableEq

/-- A call of `replaceAllocationSandbox` that found its allocation active. -/
structure Replace where
  allocation : AllocationId
  sandbox : SandboxId
  destroyed : Bool := false
  deriving DecidableEq

structure World where
  now : Nat
  allocations : AllocationId → Option Allocation
  /-- `volume_holds` -/
  holds : HoldNode → VolumeKey → Option AllocationId
  sandboxes : SandboxId → Option Sandbox
  creates : CallId → Option Create
  retires : CallId → Option Retire
  replaces : CallId → Option Replace
  nextSandbox : SandboxId

def empty (now : Nat) : World where
  now := now
  allocations := fun _ => none
  holds := fun _ _ => none
  sandboxes := fun _ => none
  creates := fun _ => none
  retires := fun _ => none
  replaces := fun _ => none
  nextSandbox := 0

/-! ## Holds -/

/-- `holderLive` -/
def World.holderLive (w : World) (a : AllocationId) : Bool :=
  (w.allocations a).any fun row =>
    !row.capacityReleased && (row.active || row.terms.workerNodeId.isSome)

def World.setHold (w : World) (node : HoldNode) (key : VolumeKey) (a : AllocationId) : World :=
  { w with holds := update w.holds node (update (w.holds node) key (some a)) }

/-- `holdVolumes`, for one volume. -/
def World.holdVolume (w : World) (a : AllocationId) (node : HoldNode) (volume : Volume) :
    World × SandboxVolume :=
  if !volume.exclusive then (w, { key := volume.key, exclusive := false })
  else
    -- Taken over only from an allocation whose sandbox is gone.
    if (w.holds node volume.key).all fun holder => holder = a || !w.holderLive holder then
      (w.setHold node volume.key a, { key := volume.key, exclusive := true })
    else (w, { key := volume.key, exclusive := true, temporary := true })

/-- `sweepVolumeHolds` -/
def World.sweepVolumeHolds (w : World) (node : Option HoldNode) : World :=
  { w with
    holds := fun n key => (w.holds n key).filter fun holder =>
      !(node.all (· = n)) || w.holderLive holder }

/-! ## Allocations -/

def World.setAllocation (w : World) (a : AllocationId) (row : Allocation) : World :=
  { w with allocations := update w.allocations a (some row) }

/-- An update of the status or of the released capacity, with the trigger on it. -/
def World.endAllocation (w : World) (a : AllocationId) (row : Allocation) : World :=
  let w := w.setAllocation a row
  if row.capacityReleased || (!row.active && row.terms.workerNodeId.isNone) then
    { w with holds := fun node key => (w.holds node key).filter (· ≠ a) }
  else w

/-- `update execution_allocations … where`, that ends allocations. -/
def World.endWhere (w : World) (a : AllocationId) (which : Allocation → Bool)
    (set : Allocation → Allocation) : World :=
  match w.allocations a with
  | none => w
  | some row => if which row then w.endAllocation a (set row) else w

def World.updateWhere (w : World) (a : AllocationId) (which : Allocation → Bool)
    (set : Allocation → Allocation) : World :=
  match w.allocations a with
  | none => w
  | some row => if which row then w.setAllocation a (set row) else w

/-! ## Creating a sandbox -/

def World.createGoesOn (w : World) (c : CallId) (a : AllocationId) (phase : CreatePhase) : World :=
  { w with creates := update w.creates c (some ⟨a, phase⟩) }

def World.createEnds (w : World) (c : CallId) : World :=
  { w with creates := update w.creates c none }

/-- `createSandbox` is called, of the provider that reaches the allocation's workspace. -/
def World.create (w : World) (c : CallId) (a : AllocationId) : Option World :=
  match w.creates c, w.allocations a with
  | none, some row =>
    some (w.createGoesOn c a
      (if row.terms.managedWorkspace then .requested else .holding row.terms.volumes []))
  | _, _ => none

/-- The host's next statement of the call. -/
def World.proceedCreate (w : World) (c : CallId) (a : AllocationId) (row : Allocation) :
    CreatePhase → Option World
  | .requested =>
    -- A sandbox that is there is only started.
    if row.active && !row.capacityReleased && row.sandboxProviderId.isNone then
      some (w.createGoesOn c a .claiming)
    else some (w.createEnds c)
  | .claiming =>
    if row.active && !row.sandboxCreationStarted then
      some ((w.setAllocation a { row with sandboxCreationStarted := true }).createGoesOn c a
        .retiringHolders)
    else some (w.createEnds c)
  -- The calls of `retireAllocation` that it waits for are the cleanup's own.
  | .retiringHolders => some (w.createGoesOn c a (.holding row.terms.volumes []))
  | .holding [] volumes => some (w.createGoesOn c a (.asked volumes))
  | .holding (volume :: rest) volumes =>
    let (w, mounted) := w.holdVolume a (volumeHoldNode row.terms) volume
    some (w.createGoesOn c a (.holding rest (volumes ++ [mounted])))
  | .asked _ => none
  | .left _ => none
  | .made sandbox =>
    if row.terms.managedWorkspace then
      some ((w.setAllocation a { row with sandboxProviderId := some sandbox }).createEnds c)
    else some (w.createEnds c)

/-- The machine makes the sandbox it was asked for. -/
def World.make (w : World) (c : CallId) (a : AllocationId) (row : Allocation) :
    CreatePhase → Option World
  | .asked volumes =>
    some ({ w with
      sandboxes := update w.sandboxes w.nextSandbox
        (some ⟨a, volumeHoldNode row.terms, volumes⟩)
      nextSandbox := w.nextSandbox + 1 }.createGoesOn c a (.made w.nextSandbox))
  | .left volumes =>
    some ({ w with
      sandboxes := update w.sandboxes w.nextSandbox
        (some ⟨a, volumeHoldNode row.terms, volumes⟩)
      nextSandbox := w.nextSandbox + 1 }.createEnds c)
  | _ => none

/-- The host stops, or its call fails. -/
def World.loseCreate (w : World) (c : CallId) (a : AllocationId) : CreatePhase → World
  | .asked volumes => w.createGoesOn c a (.left volumes)
  | .left volumes => w.createGoesOn c a (.left volumes)
  | _ => w.createEnds c

/-! ## Ending and replacing a sandbox -/

def World.destroy (w : World) (sandbox : SandboxId) : World :=
  { w with sandboxes := update w.sandboxes sandbox none }

def World.retireGoesOn (w : World) (r : CallId) (a : AllocationId) (phase : RetirePhase) : World :=
  { w with retires := update w.retires r (some ⟨a, phase⟩) }

def World.retireEnds (w : World) (r : CallId) : World :=
  { w with retires := update w.retires r none }

/-- A claim's time. -/
def maintenanceMs : Nat := 300000

/-- `retirableAllocations`: the cleanup, or who creates a sandbox, comes to an allocation. -/
def World.retire (w : World) (r : CallId) (a : AllocationId) : Option World :=
  match w.retires r, w.allocations a with
  | none, some row =>
    if row.terms.workerNodeId.isSome && !row.active && !row.capacityReleased then
      some (w.retireGoesOn r a (.selected row.sandboxCreationStarted row.sandboxProviderId))
    else none
  | _, _ => none

/-- `retireAllocation`'s next step; `token` is that of its claim. -/
def World.proceedRetire (w : World) (r : CallId) (a : AllocationId) (row : Allocation)
    (token : ClaimToken) : RetirePhase → World
  | .selected started sandbox =>
    if started && sandbox.isNone then w.retireEnds r
    -- `claimAllocationMaintenance`
    else if !row.active && !row.capacityReleased &&
        (row.maintenanceClaim.isNone || row.maintenanceClaimedUntil < w.now) then
      (w.setAllocation a { row with
        maintenanceClaim := some token
        maintenanceClaimedUntil := w.now + maintenanceMs }).retireGoesOn r a
          (.destroying token sandbox)
    else w.retireEnds r
  | .destroying claim sandbox =>
    if row.maintenanceClaim = some claim then
      (match sandbox with
        | some sandbox => w.destroy sandbox
        | none => w).retireGoesOn r a (.releasing claim)
    else w.retireEnds r
  | .releasing claim =>
    (w.endWhere a (fun row => !row.active && row.maintenanceClaim = some claim)
      fun row => { row with capacityReleased := true }).retireEnds r

/-- `renewAllocationMaintenance` and `releaseAllocationMaintenance` -/
def World.setClaim (w : World) (a : AllocationId) (claim : ClaimToken) (keep : Bool) : World :=
  w.updateWhere a (fun row => row.maintenanceClaim = some claim) fun row =>
    if keep then { row with maintenanceClaimedUntil := w.now + maintenanceMs }
    else { row with maintenanceClaim := none, maintenanceClaimedUntil := 0 }

/-- `replaceAllocationSandbox` begins: the allocation is active and owns the sandbox. -/
def World.replace (w : World) (p : CallId) (a : AllocationId) (sandbox : SandboxId) :
    Option World :=
  match w.replaces p, w.allocations a with
  | none, some row =>
    if row.terms.managedWorkspace && row.active && !row.capacityReleased &&
        row.sandboxProviderId = some sandbox then
      some { w with replaces := update w.replaces p (some ⟨a, sandbox, false⟩) }
    else none
  | _, _ => none

def World.proceedReplace (w : World) (p : CallId) (call : Replace) : World :=
  if call.destroyed then
    { w.updateWhere call.allocation
        (fun row => row.active && row.sandboxProviderId = some call.sandbox)
        (fun row => { row with sandboxProviderId := none, sandboxCreationStarted := false }) with
      replaces := update w.replaces p none }
  else
    { w.destroy call.sandbox with
      replaces := update w.replaces p (some { call with destroyed := true }) }

/-! ## Steps -/

inductive Action
  | tick (now : Nat)
  | allocate (a : AllocationId) (terms : Terms)
  | release (a : AllocationId)
  | create (c : CallId) (a : AllocationId)
  | proceedCreate (c : CallId)
  | make (c : CallId)
  | loseCreate (c : CallId)
  | retire (r : CallId) (a : AllocationId)
  | proceedRetire (r : CallId) (token : ClaimToken)
  /-- A claim is renewed, or given back. -/
  | setClaim (a : AllocationId) (claim : ClaimToken) (keep : Bool)
  | stopRetire (r : CallId)
  | replace (p : CallId) (a : AllocationId) (sandbox : SandboxId)
  | proceedReplace (p : CallId)
  | stopReplace (p : CallId)
  /-- The machine destroys a sandbox on its own, or late. -/
  | vanish (sandbox : SandboxId)
  /-- `confirmWorkspaceDestroyed` -/
  | confirm (a : AllocationId)
  /-- `retireAllocation` of the recovery of a lost node. -/
  | recover (a : AllocationId)
  | sweep (node : Option HoldNode)
  deriving DecidableEq

def step (w : World) : Action → Option World
  | .tick now => if w.now ≤ now then some { w with now } else none
  | .allocate a terms =>
    match w.allocations a with
    | none => some (w.setAllocation a { terms })
    | some _ => none
  | .release a => some (w.endWhere a (·.active) fun row => { row with active := false })
  | .create c a => w.create c a
  | .proceedCreate c =>
    (w.creates c).bind fun call =>
      (w.allocations call.allocation).bind fun row =>
        w.proceedCreate c call.allocation row call.phase
  | .make c =>
    (w.creates c).bind fun call =>
      (w.allocations call.allocation).bind fun row => w.make c call.allocation row call.phase
  | .loseCreate c =>
    (w.creates c).map fun call => w.loseCreate c call.allocation call.phase
  | .retire r a => w.retire r a
  | .proceedRetire r token =>
    (w.retires r).bind fun call =>
      (w.allocations call.allocation).map fun row =>
        w.proceedRetire r call.allocation row token call.phase
  | .setClaim a claim keep => some (w.setClaim a claim keep)
  | .stopRetire r => some (w.retireEnds r)
  | .replace p a sandbox => w.replace p a sandbox
  | .proceedReplace p => (w.replaces p).map fun call => w.proceedReplace p call
  | .stopReplace p => some { w with replaces := update w.replaces p none }
  | .vanish sandbox => some (w.destroy sandbox)
  | .confirm a =>
    some (w.endWhere a
      (fun row => row.terms.workerNodeId.isSome && !row.active && !row.capacityReleased)
      fun row => { row with capacityReleased := true })
  | .recover a =>
    some (w.endWhere a (fun row => row.terms.workerNodeId.isSome)
      fun row => { row with active := false, capacityReleased := true })
  | .sweep node => some (w.sweepVolumeHolds node)

/-! ## One sandbox at a time -/

/-- No key is mounted by two sandboxes of a machine. -/
def World.MountedOnce (w : World) : Prop :=
  ∀ s₁ s₂ b₁ b₂ key, w.sandboxes s₁ = some b₁ → w.sandboxes s₂ = some b₂ → b₁.node = b₂.node →
    mounts b₁.volumes key = true → mounts b₂.volumes key = true → s₁ = s₂

/-- The call may still have its machine make a sandbox. -/
def CreatePhase.pending : CreatePhase → Bool
  | .requested => false
  | .claiming => false
  | .retiringHolders => true
  | .holding _ _ => true
  | .asked _ => true
  | .left _ => true
  | .made _ => false

/-- The allocation has no sandbox, and none is on its way. -/
structure World.Idle (w : World) (a : AllocationId) : Prop where
  sandboxes : ∀ s b, w.sandboxes s = some b → b.allocation ≠ a
  creates : ∀ c call, w.creates c = some call → call.phase.pending = true → call.allocation ≠ a

/-- **What a step must meet for an allocation with exclusive volumes**: its holds are not ended
while it has a sandbox, or one is on its way; and a provider that keeps its own sandboxes is
asked for one only while the allocation is active and has none. -/
def Careful (w : World) (action : Action) : Prop :=
  ∀ a row, w.allocations a = some row → row.terms.exclusive = true →
    match action with
    | .create _ b => b = a → row.terms.managedWorkspace = false → row.active = true ∧ w.Idle a
    | .release b => b = a → row.terms.workerNodeId = none → w.Idle a
    | .proceedRetire r _ =>
      ∀ claim, w.retires r = some ⟨a, .releasing claim⟩ → row.terms.managedWorkspace = false →
        w.Idle a
    | .confirm b => b = a → w.Idle a
    | .recover b => b = a → w.Idle a
    | _ => True

end Catamorphic.Workers.Volumes
