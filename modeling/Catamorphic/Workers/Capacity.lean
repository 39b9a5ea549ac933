import Catamorphic.Lib.RowLocks
import Catamorphic.Lib.Runs
import Mathlib.Algebra.GroupWithZero.Nat

/-!
# Capacity of worker nodes

An allocation takes part of its node's capacity from the moment it is created until it is
given back. Every statement is a step, and transactions interleave between two of them: those
that create allocations, and those that report capacity, renew leases, enable, drain and
delete nodes. Either takes the node's row lock first.
-/

namespace Catamorphic.Workers.Capacity

open RowLocks Function

abbrev TenantId := Nat
abbrev AuthorityId := Nat
abbrev ProjectId := Nat
abbrev NodeId := Nat
abbrev AllocationId := Nat
abbrev WorkloadId := Nat
abbrev LeaseToken := Nat
abbrev TxId := Nat

/-! ## Capacity arithmetic -/

structure WorkerCapacity where
  workspaces : Nat
  cpuMillis : Option Nat := none
  memoryMb : Option Nat := none
  deriving DecidableEq

/-- `EnvironmentResourcePolicy`, and a node's default resources. -/
structure Resources where
  cpuMillis : Option Nat := none
  memoryMb : Option Nat := none
  deriving DecidableEq

structure Usage where
  workspaces : Nat
  cpuMillis : Nat
  memoryMb : Nat
  deriving DecidableEq

def capacityFits (capacity : WorkerCapacity) (usage : Usage) (resources : Resources) : Bool :=
  usage.workspaces + 1 ≤ capacity.workspaces &&
    capacity.cpuMillis.all (fun limit => usage.cpuMillis + resources.cpuMillis.getD 0 ≤ limit) &&
    capacity.memoryMb.all (fun limit => usage.memoryMb + resources.memoryMb.getD 0 ≤ limit)

/-! ## Rows -/

/-- A row of `worker_nodes`. -/
structure Node where
  tenantId : TenantId
  authorityId : AuthorityId
  enabled : Bool := true
  leaseToken : LeaseToken
  leaseExpiresAt : Nat
  capacity : Option WorkerCapacity
  defaultResources : Resources
  disposable : Bool
  /-- It has an executor of its own. -/
  remote : Bool
  deriving DecidableEq

inductive WorkloadKind
  | agent
  | workflow
  deriving DecidableEq

/-- `EnvironmentAllocationPolicy` -/
structure Policy where
  bindingId : Nat
  /-- `binding.trust === "managed"` -/
  managed : Bool
  resources : Option Resources
  deriving DecidableEq

/-- A row of `execution_allocations`. -/
structure Allocation where
  tenantId : TenantId
  projectId : ProjectId
  environmentName : Nat
  bindingId : Nat
  workloadKind : WorkloadKind
  rootWorkloadId : WorkloadId
  workerNodeId : Option NodeId
  policySnapshot : Policy
  reservedCpuMillis : Nat
  reservedMemoryMb : Nat
  active : Bool := true
  /-- `capacity_released_at is not null` -/
  capacityReleased : Bool := false
  deriving DecidableEq

/-- A row of `work_workers`; its key is the worker's node. -/
structure Worker where
  /-- `coalesce(last_seen_at, enrolled_at)` -/
  seenAt : Nat
  revoked : Bool := false
  deriving DecidableEq

def Allocation.holds (allocation : Allocation) (nodeId : NodeId) : Bool :=
  allocation.workerNodeId = some nodeId && !allocation.capacityReleased

def Allocation.runs (allocation : Allocation) (kind : WorkloadKind) (root : WorkloadId) : Bool :=
  allocation.active && allocation.workloadKind = kind && allocation.rootWorkloadId = root

/-- The sum of something over the allocations that hold a node's capacity. -/
def load (rows : AllocationId → Option Allocation) (bound : AllocationId) (nodeId : NodeId)
    (of : Allocation → Nat) : Nat :=
  ((List.range bound).map fun id =>
    ((rows id).filter fun row => row.holds nodeId).elim 0 of).sum

def workerUsage (rows : AllocationId → Option Allocation) (bound : AllocationId)
    (nodeId : NodeId) : Usage where
  workspaces := load rows bound nodeId fun _ => 1
  cpuMillis := load rows bound nodeId (·.reservedCpuMillis)
  memoryMb := load rows bound nodeId (·.reservedMemoryMb)

/-! ## Transactions -/

structure CreateArgs where
  tenantId : TenantId
  projectId : ProjectId
  environmentName : Nat
  workloadKind : WorkloadKind
  rootWorkloadId : WorkloadId
  workerNodeId : Option NodeId
  policy : Policy
  deriving DecidableEq

structure DrainArgs where
  tenantId : TenantId
  authorityId : AuthorityId
  nodeId : NodeId
  unseenForMs : Nat
  deriving DecidableEq

/-- Where a transaction is between two statements. -/
inductive Phase
  | ready
  /-- `create` selects the node. -/
  | requested (args : CreateArgs)
  /-- `create` sums the usage of the node that it has locked and read. -/
  | chosen (args : CreateArgs) (nodeId : NodeId) (node : Node)
  /-- `create` looks for the project. -/
  | fitted (args : CreateArgs) (policy : Policy)
  /-- `create` inserts the row. -/
  | admitted (args : CreateArgs) (policy : Policy)
  /-- `drain` has locked the node and counts; `live` when it is enabled under a live lease. -/
  | draining (args : DrainArgs) (live : Bool)
  /-- `drain` looks whether the worker is lost. -/
  | drainingHeld (args : DrainArgs)
  | revoking (args : DrainArgs)
  | disabling (args : DrainArgs)
  /-- `deleteNode` has locked the node and gives back what it holds. -/
  | deleting (nodeId : NodeId)
  | deletingRow (nodeId : NodeId)
  deriving DecidableEq

structure Transaction where
  /-- The transaction's `now()`. -/
  startedAt : Nat
  /-- It may create allocations, and writes no node. -/
  places : Bool
  phase : Phase
  deriving DecidableEq

structure World where
  now : Nat
  nodes : Store NodeId Node TxId
  allocations : Store AllocationId Allocation TxId
  workers : Store NodeId Worker TxId
  projects : ProjectId → Option TenantId
  transactions : TxId → Option Transaction
  nextAllocation : AllocationId

def empty (now : Nat) : World where
  now := now
  nodes := .start fun _ => none
  allocations := .start fun _ => none
  workers := .start fun _ => none
  projects := fun _ => none
  transactions := fun _ => none
  nextAllocation := 0

/-- What a node's allocations take of its capacity, as committed. -/
def World.usage (w : World) (nodeId : NodeId) : Usage :=
  workerUsage w.allocations.rows w.nextAllocation nodeId

/-- What they take as a transaction sees it. -/
def World.usageFor (w : World) (tx : TxId) (nodeId : NodeId) : Usage :=
  workerUsage (w.allocations.view tx) w.nextAllocation nodeId

def World.goesOn (w : World) (tx : TxId) (t : Transaction) (phase : Phase) : World :=
  { w with transactions := update w.transactions tx (some { t with phase }) }

def World.rollback (w : World) (tx : TxId) : World :=
  { w with
    nodes := w.nodes.rollback tx
    allocations := w.allocations.rollback tx
    workers := w.workers.rollback tx
    transactions := update w.transactions tx none }

def World.commit (w : World) (tx : TxId) : World :=
  { w with
    nodes := w.nodes.commit tx
    allocations := w.allocations.commit tx
    workers := w.workers.commit tx
    transactions := update w.transactions tx none }

/-! ## Creating an allocation -/

/-- The policy with the node's defaults for what it leaves open. -/
def Policy.filled (policy : Policy) (node : Node) : Policy :=
  let defaults := if policy.managed then node.defaultResources else {}
  { policy with
    resources := some {
      cpuMillis := (policy.resources.bind (·.cpuMillis)) <|> defaults.cpuMillis
      memoryMb := (policy.resources.bind (·.memoryMb)) <|> defaults.memoryMb } }

/-- What the capacity is checked for, and what is reserved. -/
def Policy.reserved (policy : Policy) : Resources :=
  if policy.managed then policy.resources.getD {} else {}

def CreateArgs.row (args : CreateArgs) (policy : Policy) : Allocation where
  tenantId := args.tenantId
  projectId := args.projectId
  environmentName := args.environmentName
  bindingId := policy.bindingId
  workloadKind := args.workloadKind
  rootWorkloadId := args.rootWorkloadId
  workerNodeId := args.workerNodeId
  policySnapshot := policy
  reservedCpuMillis := policy.reserved.cpuMillis.getD 0
  reservedMemoryMb := policy.reserved.memoryMb.getD 0

/-- `select … from worker_nodes … for update` -/
def World.chooseNode (w : World) (tx : TxId) (t : Transaction) (args : CreateArgs)
    (nodeId : NodeId) : Option World :=
  if !w.nodes.free tx nodeId then none
  else
    match w.nodes.view tx nodeId with
    | none => some (w.rollback tx)
    | some node =>
      if node.tenantId = args.tenantId && node.enabled && t.startedAt < node.leaseExpiresAt then
        some ({ w with nodes := w.nodes.hold tx nodeId (some node) }.goesOn tx t
          (.chosen args nodeId node))
      else some (w.rollback tx)

/-- A row of the workload that another transaction has not committed, or is about to change. -/
def World.contended (w : World) (tx : TxId) (args : CreateArgs) : Bool :=
  (List.range w.nextAllocation).any fun id =>
    !w.allocations.free tx id &&
      ((w.allocations.rows id).any (·.runs args.workloadKind args.rootWorkloadId) ||
        ((w.allocations.held id).bind (·.2)).any (·.runs args.workloadKind args.rootWorkloadId))

/-- `uq_execution_allocations_active_workload` -/
def World.conflicts (w : World) (tx : TxId) (args : CreateArgs) : Bool :=
  (List.range w.nextAllocation).any fun id =>
    (w.allocations.view tx id).any (·.runs args.workloadKind args.rootWorkloadId)

/-- `insert into execution_allocations`; it waits for who holds a row of the workload. -/
def World.insert (w : World) (tx : TxId) (t : Transaction) (args : CreateArgs)
    (policy : Policy) : Option World :=
  if w.contended tx args then none
  else if w.conflicts tx args then some (w.rollback tx)
  else
    some ({ w with
      allocations := w.allocations.hold tx w.nextAllocation (some (args.row policy))
      nextAllocation := w.nextAllocation + 1 }.goesOn tx t .ready)

/-! ## Nodes -/

/-- How long a lease lasts. -/
def leaseMs : Nat := 45000

structure Offer where
  tenantId : TenantId
  authorityId : AuthorityId
  capacity : Option WorkerCapacity
  defaults : Resources
  /-- The lease's token, or the epoch of the executor that connects. -/
  token : LeaseToken
  deriving DecidableEq

/-- A statement that writes a node. -/
inductive NodeWrite
  | register (offer : Offer) (disposable evenIfDisabled : Bool)
  | connectRemote (offer : Offer)
  | renew (token : LeaseToken)
  | renewRemote (token : LeaseToken)
  | release (token : LeaseToken)
  | setEnabled (tenantId : TenantId) (authorityId : AuthorityId) (enabled : Bool)
  /-- A re-enrolled name gets its node back. -/
  | enroll (tenantId : TenantId)
  deriving DecidableEq

def Offer.node (offer : Offer) (now : Nat) (disposable remote enabled : Bool) : Node where
  tenantId := offer.tenantId
  authorityId := offer.authorityId
  enabled := enabled
  leaseToken := offer.token
  leaseExpiresAt := now + leaseMs
  capacity := offer.capacity
  defaultResources := offer.defaults
  disposable := disposable
  remote := remote

/-- `insert … on conflict`; `none` while another transaction holds the row. -/
def World.upsertNode (w : World) (tx : TxId) (nodeId : NodeId) (accepts : Node → Bool)
    (row : Bool → Node) : Option World :=
  if !w.nodes.free tx nodeId then none
  else
    match w.nodes.view tx nodeId with
    | none => some { w with nodes := w.nodes.hold tx nodeId (some (row true)) }
    | some node =>
      if accepts node then
        some { w with nodes := w.nodes.hold tx nodeId (some (row node.enabled)) }
      else some (w.rollback tx)

def World.updateNode (w : World) (tx : TxId) (nodeId : NodeId) (which : Node → Bool)
    (set : Node → Node) : Option World :=
  (w.nodes.update tx nodeId which set).map fun nodes => { w with nodes }

def World.writeNode (w : World) (tx : TxId) (now : Nat) (nodeId : NodeId) :
    NodeWrite → Option World
  | .register offer disposable evenIfDisabled =>
    w.upsertNode tx nodeId
      (fun node => node.tenantId = offer.tenantId && node.authorityId = offer.authorityId &&
        (evenIfDisabled || node.enabled) && node.leaseExpiresAt ≤ now)
      (offer.node now disposable false)
  | .connectRemote offer =>
    w.upsertNode tx nodeId
      (fun node => node.enabled && node.tenantId = offer.tenantId &&
        node.authorityId = offer.authorityId &&
        -- An earlier epoch is refused while a later one's lease is live.
        !(now < node.leaseExpiresAt && node.remote && offer.token < node.leaseToken))
      (offer.node now false true)
  | .renew token =>
    w.updateNode tx nodeId
      (fun node => node.leaseToken = token && node.enabled && now < node.leaseExpiresAt)
      fun node => { node with leaseExpiresAt := now + leaseMs }
  | .renewRemote token =>
    w.updateNode tx nodeId (fun node => node.leaseToken = token && node.enabled && node.remote)
      fun node => { node with leaseExpiresAt := now + leaseMs }
  | .release token =>
    w.updateNode tx nodeId (fun node => node.leaseToken = token)
      fun node => { node with leaseExpiresAt := now, enabled := node.enabled && !node.disposable }
  | .setEnabled tenantId authorityId enabled =>
    w.updateNode tx nodeId
      (fun node => node.tenantId = tenantId && node.authorityId = authorityId)
      fun node => { node with enabled }
  | .enroll tenantId =>
    w.updateNode tx nodeId (fun node => node.tenantId = tenantId)
      fun node => { node with enabled := true }

/-! ## Allocations given back -/

def World.updateAllocation (w : World) (tx : TxId) (id : AllocationId)
    (which : Allocation → Bool) (set : Allocation → Allocation) : Option World :=
  (w.allocations.update tx id which set).map fun allocations => { w with allocations }

/-- A statement that writes an allocation. -/
inductive AllocationWrite
  | release (tenantId : TenantId)
  /-- `retireAllocation`, of a node that is gone. -/
  | retire
  /-- Its workspace is destroyed, or an operator says so. -/
  | giveBack
  deriving DecidableEq

def AllocationWrite.which : AllocationWrite → Allocation → Bool
  | .release tenantId, row => row.tenantId = tenantId && row.active
  | .retire, _ => true
  | .giveBack, row => !row.active

def AllocationWrite.set : AllocationWrite → Allocation → Allocation
  | .release _, row => { row with active := false }
  | .retire, row => { row with active := false, capacityReleased := true }
  | .giveBack, row => { row with capacityReleased := true }

/-- All of a node's allocations give their capacity back, in one statement. -/
def World.giveBackAll (w : World) (tx : TxId) (nodeId : NodeId) : Option World :=
  ((List.range w.nextAllocation).foldlM
    (fun allocations id => Store.update allocations tx id (fun row => row.holds nodeId)
      fun row => { row with capacityReleased := true })
    w.allocations).map fun allocations => { w with allocations }

/-! ## Draining and deleting a node -/

/-- `drain` locks the node's row, if there is one. -/
def World.drain (w : World) (tx : TxId) (t : Transaction) (args : DrainArgs) : Option World :=
  match (w.nodes.view tx args.nodeId).filter fun node => node.tenantId = args.tenantId with
  | none => some (w.goesOn tx t (.draining args false))
  | some node =>
    if w.nodes.free tx args.nodeId then
      some ({ w with nodes := w.nodes.hold tx args.nodeId (some node) }.goesOn tx t
        (.draining args (node.enabled && t.startedAt < node.leaseExpiresAt)))
    else none

/-- `isLost` -/
def Node.isLost (node : Node) (now graceMs : Nat) : Bool :=
  node.disposable && node.leaseExpiresAt ≤ now &&
    (!node.enabled || node.leaseExpiresAt + graceMs ≤ now)

/-- `deleteNode` locks a lost node that nothing active is left on; it skips one that is locked. -/
def World.deleteNode (w : World) (tx : TxId) (t : Transaction) (nodeId : NodeId)
    (graceMs : Nat) : World :=
  match w.nodes.view tx nodeId with
  | none => w
  | some node =>
    if w.nodes.free tx nodeId && node.isLost t.startedAt graceMs &&
        !(List.range w.nextAllocation).any (fun id =>
          (w.allocations.view tx id).any fun row => row.workerNodeId = some nodeId && row.active)
    then
      { w with nodes := w.nodes.hold tx nodeId (some node) }.goesOn tx t (.deleting nodeId)
    else w

/-- The next statement of a transaction. -/
def World.proceed (w : World) (tx : TxId) (t : Transaction) : Option World :=
  match t.phase with
  | .ready => none
  | .requested args =>
    match args.workerNodeId with
    | none => some (w.goesOn tx t (.fitted args args.policy))
    | some nodeId => w.chooseNode tx t args nodeId
  | .chosen args nodeId node =>
    let policy := args.policy.filled node
    if node.capacity.all fun capacity =>
        capacityFits capacity (w.usageFor tx nodeId) policy.reserved then
      some (w.goesOn tx t (.fitted args policy))
    else some (w.rollback tx)
  | .fitted args policy =>
    -- `requireTenantProject`
    if w.projects args.projectId = some args.tenantId then
      some (w.goesOn tx t (.admitted args policy))
    else some (w.rollback tx)
  | .admitted args policy => w.insert tx t args policy
  | .draining args live =>
    if 0 < (w.usageFor tx args.nodeId).workspaces then
      -- Connected, it gives them back as its chats idle.
      if live then some (w.goesOn tx t .ready) else some (w.goesOn tx t (.drainingHeld args))
    else some (w.goesOn tx t (.revoking args))
  | .drainingHeld args =>
    if (w.workers.view tx args.nodeId).any fun worker =>
        worker.seenAt + args.unseenForMs ≤ t.startedAt then
      some (w.goesOn tx t (.revoking args))
    else some (w.goesOn tx t .ready)
  | .revoking args =>
    match (w.workers.view tx args.nodeId).filter fun worker => !worker.revoked with
    | none => some (w.goesOn tx t .ready)
    | some worker =>
      if w.workers.free tx args.nodeId then
        some ({ w with
          workers := w.workers.hold tx args.nodeId (some { worker with revoked := true })
            }.goesOn
            tx t (.disabling args))
      else none
  | .disabling args =>
    (w.updateNode tx args.nodeId
      (fun node => node.tenantId = args.tenantId && node.authorityId = args.authorityId)
      fun node => { node with enabled := false }).map fun w' => w'.goesOn tx t .ready
  | .deleting nodeId => (w.giveBackAll tx nodeId).map fun w' => w'.goesOn tx t (.deletingRow nodeId)
  | .deletingRow nodeId =>
    some ({ w with nodes := w.nodes.hold tx nodeId none }.goesOn tx t .ready)

inductive Action
  | tick (now : Nat)
  /-- A project is created, moved or deleted. -/
  | project (projectId : ProjectId) (tenantId : Option TenantId)
  | begin (tx : TxId) (places : Bool)
  | proceed (tx : TxId)
  | create (tx : TxId) (args : CreateArgs)
  | writeAllocation (tx : TxId) (id : AllocationId) (write : AllocationWrite)
  | writeNode (tx : TxId) (nodeId : NodeId) (write : NodeWrite)
  /-- A worker enrolls, calls, is revoked or forgotten. -/
  | writeWorker (tx : TxId) (nodeId : NodeId) (worker : Option Worker)
  | drain (tx : TxId) (args : DrainArgs)
  | deleteNode (tx : TxId) (nodeId : NodeId) (graceMs : Nat)
  | commit (tx : TxId)
  /-- A transaction fails, or its connection is lost. -/
  | rollback (tx : TxId)
  deriving DecidableEq

/-- The transaction, when it is between two statements of its caller. -/
def World.idle (w : World) (tx : TxId) : Option Transaction :=
  (w.transactions tx).filter fun t => t.phase = .ready

/-- One that writes nodes. -/
def World.tending (w : World) (tx : TxId) : Option Transaction :=
  (w.idle tx).filter fun t => !t.places

def step (w : World) : Action → Option World
  | .tick now => if w.now ≤ now then some { w with now } else none
  | .project projectId tenantId =>
    some { w with projects := update w.projects projectId tenantId }
  | .begin tx places =>
    match w.transactions tx with
    | none => some (w.goesOn tx ⟨w.now, places, .ready⟩ .ready)
    | some _ => none
  | .proceed tx => (w.transactions tx).bind fun t => w.proceed tx t
  | .create tx args =>
    ((w.idle tx).filter (·.places)).map fun t => w.goesOn tx t (.requested args)
  | .writeAllocation tx id write =>
    (w.idle tx).bind fun _ => w.updateAllocation tx id write.which write.set
  | .writeNode tx nodeId write =>
    (w.tending tx).bind fun t => w.writeNode tx t.startedAt nodeId write
  | .writeWorker tx nodeId worker =>
    (w.idle tx).bind fun _ =>
      if w.workers.free tx nodeId then
        some { w with workers := w.workers.hold tx nodeId worker }
      else none
  | .drain tx args => (w.tending tx).bind fun t => w.drain tx t args
  | .deleteNode tx nodeId graceMs =>
    (w.tending tx).map fun t => w.deleteNode tx t nodeId graceMs
  | .commit tx => (w.idle tx).map fun _ => w.commit tx
  | .rollback tx => (w.transactions tx).map fun _ => w.rollback tx

end Catamorphic.Workers.Capacity
