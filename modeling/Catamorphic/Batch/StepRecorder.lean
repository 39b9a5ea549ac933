import Mathlib.Logic.Function.Basic
import Catamorphic.Batch.StepValues

/-!
# The step recorder of an invocation

The process body of a batch item runs in a worker. Each of its steps goes through `runStep`:
a step that an earlier run recorded is answered from the record, a batch step suspends the
run, and any other step is run and noted. The receipt of the run says how it ended and lists
the steps.
-/

namespace Catamorphic.Batch

/-- A step call of the body. -/
structure Call where
  nodeId : String
  name : String
  functionName : Option String
  input : Value

/-- `RuntimeBatchStepSuspension`, without the policy of the cohort -/
structure Suspension where
  nodeId : String
  occurrence : Nat
  name : String
  functionName : String
  input : Json
  partition? : Option Json

/-- An error that code of the project throws. -/
inductive Fault
  | skipped (reason : String)
  | rateLimited (retryAfterMs : Nat) (message : String)
  | error (message : String)

def Fault.message : Fault → String
  | .skipped reason => reason
  | .rateLimited _ message | .error message => message

inductive Thrown
  | suspension (suspension : Suspension)
  | fault (fault : Fault)

/-- What a step call came to, for the body. -/
abbrev Outcome := Except Thrown Value

inductive Action
  | returns (value : Value)
  | throws (fault : Fault)
  /-- throws on what the call of that index threw -/
  | rethrows (index : Nat)
  | calls (call : Call)

/-- A deterministic and sequential body: what it does next, given what its calls came to. -/
abbrev Body := List Outcome → Action

/-! ## The exports of the module -/

/-- What the module exports under a name. -/
inductive Exported
  | other
  | batchStep (validPolicy : Bool) (partitionBy : Option (Value → Except String Value))

abbrev Exports := String → Exported

def resolveBatchStep (moduleExports : Exports) :
    Option String → Except String (Option (Option (Value → Except String Value)))
  | none => .ok none
  | some functionName =>
    if functionName = "" then .ok none
    else match moduleExports functionName with
      | .other => .ok none
      | .batchStep true partitionBy => .ok (some partitionBy)
      | .batchStep false _ =>
        .error ("Batch step '" ++ functionName ++ "' has an invalid policy")

/-- The partition of the suspension, where the step has one. -/
def partitionOf (partitionBy : Option (Value → Except String Value)) (input : Value) :
    Except String (Option Json) :=
  match partitionBy with
  | none => .ok none
  | some partition => (partition input).map (some ∘ toProtocolJson)

/-! ## The record -/

inductive StepStatus
  | waiting
  | completed
  | failed
  | skipped
  deriving DecidableEq

/-- `RuntimeStepEntry`, without its times -/
structure StepEntry where
  nodeId : String
  occurrence : Nat
  name : String
  status : StepStatus
  input : Json
  output : Option Json
  error : Option String

def replayKey (nodeId : String) (occurrence : Nat) : String :=
  nodeId ++ ":" ++ toString occurrence

/-- `invocation.replay`, as its entries; of two under one key the later is kept. -/
abbrev Replay := List (String × Json)

def Replay.get (replay : Replay) (key : String) : Option Json :=
  (replay.reverse.find? (·.1 = key)).map (·.2)

/-! ## A run -/

/-- A step the run came to, with what it came to. -/
structure Taken where
  call : Call
  occurrence : Nat
  outcome : Outcome

structure Recorder where
  occurrences : String → Nat
  /-- the steps of the receipt -/
  steps : List StepEntry
  /-- the steps that were run here: those the parent got events of -/
  events : List StepEntry
  taken : List Taken

def Recorder.start : Recorder := ⟨fun _ => 0, [], [], []⟩

section Run

variable (moduleExports : Exports) (replay : Replay)
  (fn : String → Nat → Value → Except Fault Value)

def Recorder.push (r : Recorder) (entry : StepEntry) : Recorder :=
  { r with steps := r.steps ++ [entry] }

/-- Where a step was run, its entry; the parent gets it as an event. -/
def Recorder.report (r : Recorder) (entry : Option StepEntry) : Recorder :=
  { r with steps := r.steps ++ entry.toList, events := r.events ++ entry.toList }

def Call.completed (call : Call) (occurrence : Nat) (output : Value) : StepEntry where
  nodeId := call.nodeId
  occurrence
  name := call.name
  status := .completed
  input := toProtocolJson call.input
  output := some (toProtocolJson output)
  error := none

def Call.failed (call : Call) (occurrence : Nat) (fault : Fault) : StepEntry where
  nodeId := call.nodeId
  occurrence
  name := call.name
  status := .failed
  input := toProtocolJson call.input
  output := none
  error := some fault.message

def Call.suspension (call : Call) (occurrence : Nat) (partition? : Option Json) : Suspension where
  nodeId := call.nodeId
  occurrence
  name := call.name
  functionName := call.functionName.getD ""
  input := toProtocolJson call.input
  partition?

/-- What a step comes to that is in no record, and its entry where it was run. -/
def unrecorded (call : Call) (occurrence : Nat) : Outcome × Option StepEntry :=
  match resolveBatchStep moduleExports call.functionName with
  | .error message => (.error (.fault (.error message)), none)
  | .ok (some partitionBy) =>
    match partitionOf partitionBy call.input with
    | .error message => (.error (.fault (.error message)), none)
    | .ok partition? => (.error (.suspension (call.suspension occurrence partition?)), none)
  | .ok none =>
    match fn call.nodeId occurrence call.input with
    | .ok value => (.ok value, some (call.completed occurrence value))
    | .error fault => (.error (.fault fault), some (call.failed occurrence fault))

def runStep (r : Recorder) (call : Call) : Outcome × Recorder :=
  let occurrence := r.occurrences call.nodeId
  let r := { r with
    occurrences := Function.update r.occurrences call.nodeId (occurrence + 1) }
  match replay.get (replayKey call.nodeId occurrence) with
  | some output => (.ok output.toValue, r.push (call.completed occurrence output.toValue))
  | none =>
    let fresh := unrecorded moduleExports fn call occurrence
    (fresh.1, r.report fresh.2)

inductive Terminal
  | completed (result : Json)
  | suspended (suspension : Suspension)
  | skipped (reason : String)
  | rateLimited (retryAfterMs : Nat) (error : String)
  | failed (error : String)
  /-- canceled or timed out -/
  | interrupted (error : String)

def Fault.terminal : Fault → Terminal
  | .skipped reason => .skipped reason
  | .rateLimited retryAfterMs message => .rateLimited retryAfterMs message
  | .error message => .failed message

def Thrown.terminal : Thrown → Terminal
  | .suspension s => .suspended s
  | .fault f => f.terminal

/-- What the body does next: a call, or how the run ends. -/
def Action.next (outcomes : List Outcome) : Action → Call ⊕ Terminal
  | .calls call => .inl call
  | .returns value => .inr (.completed (toProtocolJson value))
  | .throws fault => .inr fault.terminal
  | .rethrows index =>
    match outcomes[index]? with
    | some (.error thrown) => .inr thrown.terminal
    | _ => .inr (.failed "undefined")

def Body.next (body : Body) (outcomes : List Outcome) : Call ⊕ Terminal :=
  (body outcomes).next outcomes

structure Receipt where
  terminal : Terminal
  steps : List StepEntry

def Recorder.outcomes (r : Recorder) : List Outcome := r.taken.map (·.outcome)

/-- A step with what it came to, noted among those taken. -/
def takeStep (r : Recorder) (call : Call) : Recorder :=
  let step := runStep moduleExports replay fn r call
  { step.2 with taken := r.taken ++ [⟨call, r.occurrences call.nodeId, step.1⟩] }

/-- A run in which the body may make `budget` calls before it is interrupted. -/
def runBody (body : Body) : Nat → Recorder → Terminal × Recorder
  | 0, r =>
    match body.next r.outcomes with
    | .inr terminal => (terminal, r)
    | .inl _ => (.interrupted "Invocation deadline exceeded", r)
  | budget + 1, r =>
    match body.next r.outcomes with
    | .inr terminal => (terminal, r)
    | .inl call => runBody body budget (takeStep moduleExports replay fn r call)

/-- The receipt of an invocation. What is known of an interrupted one is its events. -/
def receiptOf (run : Terminal × Recorder) : Receipt where
  terminal := run.1
  steps := match run.1 with
    | .interrupted _ => run.2.events
    | _ => run.2.steps

end Run

end Catamorphic.Batch
