import Mathlib.Algebra.Order.Ring.Unbundled.Rat
import Mathlib.Data.List.Sort
import Mathlib.Data.Rat.Defs
import Catamorphic.Lib.FirstFit
import Catamorphic.Lib.JsString
import Catamorphic.Lib.Maps

/-!
# Machines on demand

A rule on demand keeps the machines that are in use or about to be, and makes new ones for work
that those have no room for, within its bounds. A name carries whom a machine serves: one of the
rule's machines for others is no longer the rule's own, and counts only until it is gone.
-/

namespace Catamorphic.Workers.Demand

open Maps

abbrev Name := List Char

/-! ## Rules -/

structure MachineDemand where
  max : Nat
  min : Nat
  idleMinutes : Nat
  enrollMinutes : Nat

/-- Whom a rule serves: a group's members, or named projects. -/
inductive Scope
  | group (group : Name)
  | projects (projects : List Name)

structure MachineRule where
  group : Option Name
  projects : Option (List Name)
  class_ : Name
  labels : List (Name × Name)
  trusted : Bool

structure WorkerPlacement where
  labels : List (Name × Name)
  groups : List Name
  projects : List Name
  trusted : Bool
  deriving DecidableEq

/-! ## Work that waits -/

structure Resources where
  cpuMillis : Option ℚ
  memoryMb : Option ℚ
  storageMb : Option ℚ
  gpu : Option Bool
  deriving DecidableEq

structure DemandWait where
  resources : Resources
  capabilities : List Name
  deriving DecidableEq

/-! ## Machines -/

inductive MachineState
  | enrolled
  | pending
  | expired
  | revoked
  deriving DecidableEq

structure ProvisionedMachine where
  name : Name
  state : MachineState
  deriving DecidableEq

structure Room where
  workspaces : Int
  cpuMillis : Option ℚ
  memoryMb : Option ℚ
  deriving DecidableEq

/-- What a workspace that names no resources is charged. -/
structure Defaults where
  cpuMillis : Option ℚ
  memoryMb : Option ℚ
  deriving DecidableEq

/-- A machine whose lease is live. -/
structure Live where
  free : Room
  defaults : Defaults

structure MachineLoad where
  holding : Nat
  idleForMs : ℚ
  unseenForMs : ℚ
  neverConnected : Bool
  live : Option Live

structure DesiredMachine where
  name : Name
  rule : Name
  class_ : Name
  placement : WorkerPlacement
  retainDays : Nat
  enrollMinutes : Nat
  /-- What the work that it is made for needs. -/
  waiting : Option DemandWait
  deriving DecidableEq

/-! ## Names -/

section

variable (digest : Name → Nat → Name)

def scopeText : Scope → Name
  | .group group => "group".toList ++ '\x00' :: group
  | .projects projects => "projects".toList ++ '\x00' ::
      [','].intercalate (projects.mergeSort fun a b => !decide (Text.ofChars b < Text.ofChars a))

def demandPrefix (rule machineClass : Name) (scope : Scope) : Name :=
  rule ++ '-' :: digest (machineClass ++ '\x00' :: scopeText scope) 6 ++ ['-']

def demandName (base : Name) (index : Nat) : Name := base ++ (toString index).toList

end

/-! ## Packing -/

structure Slot where
  room : Room
  defaults : Defaults
  deriving DecidableEq

structure Charge where
  cpuMillis : ℚ
  memoryMb : ℚ

/-- `amount < needed` of what is bounded. -/
def short (amount : Option ℚ) (needed : ℚ) : Bool := amount.any fun amount => amount < needed

/-- What a piece of work is charged: its resources, or the machine's defaults. -/
def chargeOf (defaults : Defaults) (wait : DemandWait) : Charge where
  cpuMillis := (wait.resources.cpuMillis.or defaults.cpuMillis).getD 0
  memoryMb := (wait.resources.memoryMb.or defaults.memoryMb).getD 0

/-- What one machine has room for, as admission charges it. -/
def roomFor (room : Room) (defaults : Defaults) (wait : DemandWait) : Option Charge :=
  let charged := chargeOf defaults wait
  if room.workspaces < 1 then none
  else if short room.cpuMillis charged.cpuMillis then none
  else if short room.memoryMb charged.memoryMb then none
  else some charged

def Room.less (room : Room) (charged : Charge) : Room where
  workspaces := room.workspaces - 1
  cpuMillis := room.cpuMillis.map fun amount => amount - charged.cpuMillis
  memoryMb := room.memoryMb.map fun amount => amount - charged.memoryMb

/-- A slot after it took a piece of work that it had room for. -/
def Slot.fit (slot : Slot) (wait : DemandWait) : Option Slot :=
  (roomFor slot.room slot.defaults wait).map fun charged =>
    { slot with room := slot.room.less charged }

/-! ## What is kept -/

section

variable (demand : MachineDemand) (loads : List (Name × MachineLoad))

structure Keeping where
  kept : List ProvisionedMachine
  /-- Kept machines that will take a piece of work once they connect. -/
  coming : Nat
  idle : List (ProvisionedMachine × ℚ)

/-- One turn of the loop over the rule's own machines. -/
def keepMachine (state : Keeping) (machine : ProvisionedMachine) : Keeping :=
  if machine.state = .pending then
    { state with kept := state.kept ++ [machine], coming := state.coming + 1 }
  else if machine.state ≠ .enrolled then state
  else
    match valueAt loads machine.name with
    | none => state
    | some load =>
      if load.live.isNone && (demand.enrollMinutes * 60000 : ℚ) ≤ load.unseenForMs then state
      else if 0 < load.holding then { state with kept := state.kept ++ [machine] }
      else if load.neverConnected then
        { state with kept := state.kept ++ [machine], coming := state.coming + 1 }
      else if load.idleForMs < (demand.idleMinutes * 60000 : ℚ) then
        { state with kept := state.kept ++ [machine] }
      else { state with idle := state.idle ++ [(machine, load.idleForMs)] }

/-- The most recently idle machines, up to the least that are kept. -/
def topUp (kept : List ProvisionedMachine) : List (ProvisionedMachine × ℚ) →
    List ProvisionedMachine
  | [] => kept
  | (machine, _) :: idle =>
    if demand.min ≤ kept.length then kept else topUp (kept ++ [machine]) idle

/-- What connected machines have free. -/
def slotsOf (kept : List ProvisionedMachine) : List Slot :=
  kept.filterMap fun machine => (valueAt loads machine.name).bind fun load =>
    load.live.map fun live => ⟨live.free, live.defaults⟩

end

/-! ## New machines -/

/--
The names that are free from an index on, with the work left over for each. As many turns as
there are names taken and machines to make are enough.
-/
def newMachines (desired : Name → Option DemandWait → DesiredMachine) (base : Name)
    (taken : List Name) : (turns add index : Nat) → List DemandWait → List DesiredMachine
  | 0, _, _, _ => []
  | _, 0, _, _ => []
  | turns + 1, add + 1, index, unmet =>
    if taken.contains (demandName base index) then
      newMachines desired base taken turns (add + 1) (index + 1) unmet
    else desired (demandName base index) unmet.head? ::
      newMachines desired base taken turns add (index + 1) unmet.tail

structure DemandArgs where
  rule : Name
  definition : MachineRule
  demand : MachineDemand
  machines : List ProvisionedMachine
  loads : List (Name × MachineLoad)
  waits : List DemandWait
  stalled : Bool

namespace DemandArgs

variable (digest : Name → Nat → Name) (args : DemandArgs)

def scope : Scope :=
  match args.definition.projects with
  | some projects => .projects projects
  | none => .group (args.definition.group.getD [])

def base : Name := demandPrefix digest args.rule args.definition.class_ args.scope

/-- `WorkerPlacementSchema.parse`: it accepts what a rule's own schema accepted. -/
def placement : WorkerPlacement where
  labels := setAt args.definition.labels "class".toList args.definition.class_
  groups := match args.scope with
    | .group group => [group]
    | .projects _ => []
  projects := match args.scope with
    | .group _ => []
    | .projects projects => projects
  trusted := args.definition.trusted

def desired (name : Name) (waiting : Option DemandWait) : DesiredMachine where
  name
  rule := args.rule
  class_ := args.definition.class_
  placement := args.placement
  retainDays := 0
  enrollMinutes := args.demand.enrollMinutes
  waiting

/-- Only machines for whom the rule serves now. -/
def own : List ProvisionedMachine :=
  args.machines.filter fun machine => (args.base digest).isPrefixOf machine.name

/-- Machines of the rule for whom it served before. -/
def before : Nat :=
  (args.machines.filter fun machine => !(args.base digest).isPrefixOf machine.name &&
    (machine.state = .pending || machine.state = .enrolled)).length

def keeping : Keeping := (args.own digest).foldl (keepMachine args.demand args.loads) ⟨[], 0, []⟩

def kept : List ProvisionedMachine :=
  topUp args.demand (args.keeping digest).kept
    ((args.keeping digest).idle.insertionSort fun left right => left.2 ≤ right.2)

/-- Work that no connected kept machine has room for. -/
def uncovered : List DemandWait :=
  (FirstFit.pack Slot.fit (slotsOf args.loads (args.kept digest)) args.waits).2

def unmet : List DemandWait := (args.uncovered digest).drop (args.keeping digest).coming

def room : Nat := args.demand.max - (args.kept digest).length - args.before digest

def add : Nat :=
  if args.stalled then 0
  else min (args.room digest)
    (max (args.unmet digest).length (args.demand.min - (args.kept digest).length))

end DemandArgs

def demandMachines (digest : Name → Nat → Name) (args : DemandArgs) : List DesiredMachine :=
  let taken := (args.own digest).map ProvisionedMachine.name
  (args.kept digest).map (fun machine => args.desired machine.name none) ++
    newMachines args.desired (args.base digest) taken (taken.length + args.add digest)
      (args.add digest) 1 (args.unmet digest)

end Catamorphic.Workers.Demand
