import Catamorphic.Lib.JsString
import Catamorphic.Lib.Maps

/-!
# Tool permissions

What happens when an agent reaches for a tool of a server: it runs, a person is asked first, or it
is refused. The layers that apply to a server are kept apart and the strictest answer wins, so that
putting a caller's layers beside the provider's own should only ever narrow what an agent may do.
-/

namespace Catamorphic.ToolPolicy

open Maps Text

inductive ToolPermission
  | allow
  | ask
  | deny
  deriving DecidableEq

/-- `RANK` -/
def rank : ToolPermission → Nat
  | .deny => 0
  | .ask => 1
  | .allow => 2

inductive Default
  | permission (permission : ToolPermission)
  | auto

structure McpToolPolicy where
  default : Option Default
  tools : Option (List (Text × ToolPermission))

structure ToolPolicyAnnotations where
  readOnlyHint : Option Bool
  destructiveHint : Option Bool

def stricterPermission (a b : ToolPermission) : ToolPermission := if rank a ≤ rank b then a else b

def permissionFromAnnotations (annotations : Option ToolPolicyAnnotations) : ToolPermission :=
  if annotations.bind ToolPolicyAnnotations.readOnlyHint = some true then .allow else .ask

def resolveToolPermission (policy : Option McpToolPolicy) (toolName : Text)
    (annotations : Option ToolPolicyAnnotations) : ToolPermission :=
  match (policy.bind McpToolPolicy.tools).bind fun tools => valueAt tools toolName with
  | some explicit => explicit
  | none =>
    match (policy.bind McpToolPolicy.default).getD .auto with
    | .auto => permissionFromAnnotations annotations
    | .permission fallback => fallback

/-- The layers that apply to one server. -/
abbrev McpToolPolicyLayers := List McpToolPolicy

def resolveToolPermissionAcross (layers : Option McpToolPolicyLayers) (toolName : Text)
    (annotations : Option ToolPolicyAnnotations) : ToolPermission :=
  match layers with
  | none | some [] => resolveToolPermission none toolName annotations
  | some (first :: rest) =>
    (rest.map fun layer => resolveToolPermission (some layer) toolName annotations).foldl
      stricterPermission (resolveToolPermission (some first) toolName annotations)

/-! ## Policies of all servers -/

/-- The layers by server key, in the order of the object. -/
abbrev PolicyMap := List (Text × McpToolPolicyLayers)

inductive Failure
  | typeError
  deriving DecidableEq

/-- The names that every object inherits. -/
def inheritedNames : List Text :=
  ["constructor", "hasOwnProperty", "isPrototypeOf", "propertyIsEnumerable", "toLocaleString",
    "toString", "valueOf", "__proto__", "__defineGetter__", "__defineSetter__",
    "__lookupGetter__", "__lookupSetter__"].map ofString

/-- `[...(merged[key] ?? [])]`: what an object inherits is there, and is no list. -/
def layersIn (merged : PolicyMap) (key : Text) : Except Failure McpToolPolicyLayers :=
  match valueAt merged key with
  | some layers => .ok layers
  | none => if inheritedNames.contains key then .error .typeError else .ok []

def mergeEntry (merged : PolicyMap) (entry : Text × McpToolPolicyLayers) :
    Except Failure PolicyMap :=
  (layersIn merged entry.1).map fun had => setAt merged entry.1 (had ++ entry.2)

def mergePolicyLayers (base extra : Option PolicyMap) : Except Failure (Option PolicyMap) :=
  match extra with
  | none | some [] => .ok base
  | some (first :: rest) => ((first :: rest).foldlM mergeEntry (base.getD [])).map some

/-! ## Server keys -/

def dash : UInt16 := 0x2D

/-- `[a-z0-9]` -/
def isKeyUnit (unit : UInt16) : Bool :=
  (0x61 ≤ unit && unit ≤ 0x7A) || (0x30 ≤ unit && unit ≤ 0x39)

/-- `.replace(/[^a-z0-9]+/g, "-")`, `inRun` where the unit before is replaced. -/
def dashed (inRun : Bool) : Text → Text
  | [] => []
  | unit :: rest =>
    if isKeyUnit unit then unit :: dashed false rest
    else if inRun then dashed true rest
    else dash :: dashed true rest

/-- `.replace(/^-+|-+$/g, "")` -/
def trimDashes (text : Text) : Text :=
  ((text.dropWhile (· = dash)).reverse.dropWhile (· = dash)).reverse

section

-- `name.trim().toLowerCase()`
variable (lowered : Text → Text)

def serverKeyOf (name : Text) : Text := trimDashes (dashed false (lowered name))

/-- Policies are keyed by server keys. -/
structure Policies where
  map : PolicyMap
  distinct : Distinct map
  keyed : ∀ entry ∈ map, ∃ name, entry.1 = serverKeyOf lowered name

end

/-! ## The gate -/

section

variable {Input : Type}

structure ToolPermissionRequest (Input : Type) where
  sessionId : Option Text
  server : Text
  tool : Text
  description : Option Text
  input : Input
  annotations : Option ToolPolicyAnnotations

inductive ToolPermissionDecision
  | allow (remember : Bool)
  | deny (reason : Option Text)

/-- What comes of asking: an answer, or a failure with the message that it has. An interrupted turn
fails the asking. -/
inductive Asked
  | answered (decision : ToolPermissionDecision)
  | rejected (message : Option Text)

inductive ToolGateVerdict
  | allowed
  | refused (message : Text)

structure ToolGateCall (Input : Type) where
  server : Text
  tool : Text
  input : Input
  layers : Option McpToolPolicyLayers
  annotations : Option ToolPolicyAnnotations
  description : Option Text
  sessionId : Option Text

/-- `ToolGate`: what was remembered, and whom to ask. -/
structure ToolGate (Input : Type) where
  remembered : List Text
  ask : Option (ToolPermissionRequest Input → Asked)

def quotedTool (call : ToolGateCall Input) : Text :=
  ofString "\"" ++ call.tool ++ ofString "\" on " ++ call.server

def ToolGateCall.key (call : ToolGateCall Input) : Text :=
  call.server ++ ofString " " ++ call.tool

def ToolGateCall.request (call : ToolGateCall Input) : ToolPermissionRequest Input where
  -- An empty session id is left out.
  sessionId := call.sessionId.filter fun id => !id.isEmpty
  server := call.server
  tool := call.tool
  description := call.description
  input := call.input
  annotations := call.annotations

/-- `decide`, with the keys that the gate remembers after it. -/
def ToolGate.decide (gate : ToolGate Input) (call : ToolGateCall Input) :
    ToolGateVerdict × List Text :=
  match call.layers with
  | none => (.allowed, gate.remembered)
  | some layers =>
    let permission := resolveToolPermissionAcross (some layers) call.tool call.annotations
    if permission = .allow then (.allowed, gate.remembered)
    else if permission = .ask && gate.remembered.contains call.key then
      (.allowed, gate.remembered)
    else if permission = .deny then
      (.refused (ofString "The tool " ++ quotedTool call ++
        ofString " is turned off in this connection's permissions."), gate.remembered)
    else
      match gate.ask with
      | none =>
        (.refused (ofString "The tool " ++ quotedTool call ++ ofString
          " needs the user's permission, and there is no one to ask in this context."),
          gate.remembered)
      | some ask =>
        match ask call.request with
        | .rejected message =>
          (.refused (message.getD (ofString "The permission request failed.")),
            gate.remembered)
        | .answered (.deny reason) =>
          (.refused (reason.getD (ofString "The user declined to let you use " ++
            quotedTool call ++ ofString " for this call.")), gate.remembered)
        | .answered (.allow remember) =>
          (.allowed, if remember && !gate.remembered.contains call.key then
              gate.remembered ++ [call.key]
            else gate.remembered)

/-- What a call meets: it runs, it waits for an answer, or it is turned off. -/
def ToolGate.verdict (gate : ToolGate Input) (call : ToolGateCall Input) : ToolPermission :=
  match call.layers with
  | none => .allow
  | some layers =>
    let permission := resolveToolPermissionAcross (some layers) call.tool call.annotations
    if permission = .ask && gate.remembered.contains call.key then .allow else permission

end

end Catamorphic.ToolPolicy
