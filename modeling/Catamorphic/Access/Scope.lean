import Catamorphic.Lib.Cover

/-!
# What an identity may reach

An identity is scoped to artifacts and project permissions. A scope covers an artifact that one of
its refs names, by its name, as one of all, or as a part of a subtree; a granted permission covers
others by its wildcards, and reading by writing. Narrowing a scope or a list of grants to what an
identity holds keeps what both reach.
-/

namespace Catamorphic.Access

/-- A string; the code here compares strings, and cuts them at ASCII characters only. -/
abbrev Text := List Char

/-! ## Project permissions -/

def read : Text := ['r', 'e', 'a', 'd']
def write : Text := ['w', 'r', 'i', 't', 'e']
def publish : Text := ['p', 'u', 'b', 'l', 'i', 's', 'h']

/-- The first part of `permission.split(":")`. -/
def thing (permission : Text) : Text :=
  permission.takeWhile (· ≠ ':')

/-- The second part of `permission.split(":")`. -/
def action (permission : Text) : Option Text :=
  match permission.dropWhile (· ≠ ':') with
  | [] => none
  | _ :: rest => some (rest.takeWhile (· ≠ ':'))

/-- Whether a granted permission covers a wanted one. -/
def permissionCovers (granted wanted : Text) : Bool :=
  if granted = ['*'] ∨ granted = wanted then true
  else if thing granted = [] ∨ thing granted ≠ thing wanted then false
  else if action granted = some ['*'] then true
  else action wanted = some read && (action granted = some write || action granted = some publish)

/-- `[a-z][a-z0-9._-]*` -/
def isWord : Text → Bool
  | [] => false
  | first :: rest =>
    first.isLower && rest.all fun c =>
      c.isLower || c.isDigit || c = '.' || c = '_' || c = '-'

/-- `PROJECT_PERMISSION_GRANT_PATTERN` -/
def grantPattern (permission : Text) : Bool :=
  permission = ['*'] || isWord (thing permission) &&
    match permission.dropWhile (· ≠ ':') with
    | [] => false
    | _ :: rest => rest = ['*'] || isWord rest

/-- A granted permission, in the syntax that a role's file is checked against. -/
structure ProjectPermission where
  text : Text
  pattern : grantPattern text = true
  deriving DecidableEq

structure ProjectPermissionRef where
  projectId : Text
  permission : ProjectPermission
  deriving DecidableEq

/-! ## Artifacts -/

inductive ToolPermission
  | allow
  | ask
  | deny
  deriving DecidableEq

/-- What tools without a rule get; `auto` reads the tool's annotations. -/
inductive ToolDefault
  | permission (permission : ToolPermission)
  | auto
  deriving DecidableEq

structure AgentRefToolPolicy where
  default : Option ToolDefault := none
  tools : List (Text × ToolPermission) := []
  deriving DecidableEq

structure AgentRef where
  projectId : Text
  name : Text
  /-- By server. -/
  toolPolicies : Option (List (Text × AgentRefToolPolicy)) := none
  deriving DecidableEq

inductive Channel
  | published
  | dev
  deriving DecidableEq

structure AppRef where
  projectId : Text
  name : Text
  channel : Option Channel := none
  versionId : Option Text := none
  deriving DecidableEq

structure WorkflowRef where
  projectId : Text
  name : Text
  deriving DecidableEq

inductive Access
  | read
  | write
  deriving DecidableEq

structure DocumentRef where
  projectId : Text
  path : Text
  access : Option Access := none
  deriving DecidableEq

inductive ArtifactRef
  | app (ref : AppRef)
  | workflow (ref : WorkflowRef)
  | agent (ref : AgentRef)
  | document (ref : DocumentRef)
  | sessions (projectId : Text)
  deriving DecidableEq

structure Identity where
  /-- Absent for the root identity. -/
  scope : Option (List ArtifactRef)
  projectPermissions : List ProjectPermissionRef := []

/-- `EVERY_ARTIFACT` -/
def everyArtifact : Text := ['*']

/-- The end of a path that covers a subtree. -/
def tree : Text := ['/', '*', '*']

def sameArtifact : ArtifactRef → ArtifactRef → Bool
  | .app a, .app b => a.projectId = b.projectId && a.name = b.name
  | .workflow a, .workflow b => a.projectId = b.projectId && a.name = b.name
  | .agent a, .agent b => a.projectId = b.projectId && a.name = b.name
  | .document a, .document b => a.projectId = b.projectId && a.path = b.path
  | .sessions a, .sessions b => a = b
  | _, _ => false

/-- An app, workflow or agent ref named `*` covers every one of its kind in the project. -/
def coversEvery : ArtifactRef → ArtifactRef → Bool
  | .app entry, .app ref => entry.projectId = ref.projectId && entry.name = everyArtifact
  | .workflow entry, .workflow ref => entry.projectId = ref.projectId && entry.name = everyArtifact
  | .agent entry, .agent ref => entry.projectId = ref.projectId && entry.name = everyArtifact
  | _, _ => false

/-- Whether one document ref grants another. -/
def documentRefCovers (entry ref : DocumentRef) : Bool :=
  if entry.projectId ≠ ref.projectId then false
  else if ref.access = some .write ∧ entry.access ≠ some .write then false
  else if tree.isSuffixOf entry.path then
    let start := entry.path.take (entry.path.length - 2)
    ref.path = start.dropLast || start.isPrefixOf ref.path
  else entry.path = ref.path

/-- Whether an entry of a scope covers an artifact. -/
def entryCovers (entry : ArtifactRef) : ArtifactRef → Bool
  | .document ref =>
    match entry with
    | .document entry => documentRefCovers entry ref
    | _ => false
  | ref => sameArtifact entry ref || coversEvery entry ref

def scopeCovers (scope : List ArtifactRef) (ref : ArtifactRef) : Bool :=
  scope.any fun entry => entryCovers entry ref

def identityCovers (identity : Identity) (ref : ArtifactRef) : Bool :=
  match identity.scope with
  | none => true
  | some scope => scopeCovers scope ref

/-! ## Narrowing -/

def refCovers (granted wanted : ProjectPermissionRef) : Bool :=
  granted.projectId = wanted.projectId &&
    permissionCovers granted.permission.text wanted.permission.text

/-- Whether a list of grants covers a permission on a project. -/
def permissionsCover (refs : List ProjectPermissionRef) (projectId permission : Text) : Bool :=
  refs.any fun ref => ref.projectId = projectId && permissionCovers ref.permission.text permission

def hasProjectPermission (identity : Identity) (projectId permission : Text) : Bool :=
  identity.scope.isNone || permissionsCover identity.projectPermissions projectId permission

/-- The permissions both a grant list and an identity hold. -/
def intersectProjectPermissions (grants : List ProjectPermissionRef) (identity : Identity) :
    List ProjectPermissionRef :=
  if identity.scope.isNone then grants
  else
    let kept := grants.flatMap fun grant =>
      if hasProjectPermission identity grant.projectId grant.permission.text then [grant]
      else identity.projectPermissions.filter fun held =>
        held.projectId = grant.projectId &&
          permissionCovers grant.permission.text held.permission.text
    (kept.zipIdx.filter fun (ref, index) => kept.findIdx (fun other =>
      other.projectId = ref.projectId && other.permission.text = ref.permission.text) = index).map
        Prod.fst

/-- What an entry that an identity holds keeps of a ref to every artifact of a kind. -/
def narrowEvery : ArtifactRef → ArtifactRef → List ArtifactRef
  | .agent ref, .agent entry =>
    if entry.projectId ≠ ref.projectId then []
    else if ref.toolPolicies.isSome then [.agent { entry with toolPolicies := ref.toolPolicies }]
    else [.agent entry]
  | .app ref, .app entry => if entry.projectId ≠ ref.projectId then [] else [.app entry]
  | .workflow ref, .workflow entry =>
    if entry.projectId ≠ ref.projectId then [] else [.workflow entry]
  | _, _ => []

/-- The name of an app, a workflow or an agent. -/
def ArtifactRef.name : ArtifactRef → Option Text
  | .app ref => some ref.name
  | .workflow ref => some ref.name
  | .agent ref => some ref.name
  | .document _ => none
  | .sessions _ => none

/-- The artifact refs both a scope and an identity reach. -/
def intersectScope (scope : List ArtifactRef) (identity : Identity) : List ArtifactRef :=
  match identity.scope with
  | none => scope
  | some held =>
    scope.flatMap fun ref =>
      if scopeCovers held ref then [ref]
      else if ref.name ≠ some everyArtifact then []
      else held.flatMap (narrowEvery ref)

/-! ## Tool policies -/

def ToolPermission.rank : ToolPermission → Nat
  | .deny => 0
  | .ask => 1
  | .allow => 2

/-- `stricterPermission` -/
def ToolPermission.stricter (a b : ToolPermission) : ToolPermission :=
  if a.rank ≤ b.rank then a else b

/-- What one policy says of a tool. -/
def resolveToolPermission (policy : AgentRefToolPolicy) (tool : Text) (readOnly : Bool) :
    ToolPermission :=
  match policy.tools.lookup tool with
  | some permission => permission
  | none =>
    match policy.default.getD .auto with
    | .permission permission => permission
    | .auto => if readOnly then .allow else .ask

/-- A layer that only narrows: without a default it has no opinion. -/
def narrowingLayer (policy : AgentRefToolPolicy) : AgentRefToolPolicy :=
  { policy with
    default := some (match policy.default with
      | some (.permission permission) => .permission permission
      | _ => .permission .allow) }

/-- The refs of a scope that let an agent be used. -/
def coveringAgentRefs (scope : List ArtifactRef) (projectId slug : Text) : List AgentRef :=
  let agents := scope.filterMap fun
    | .agent ref => if ref.projectId = projectId then some ref else none
    | _ => none
  agents.filter (fun ref => ref.name = slug) ++ agents.filter fun ref => ref.name = everyArtifact

/-- The layers that a ref puts on a server; `serverKey` is the key of a server's name. -/
def AgentRef.layers (serverKey : Text → Text) (ref : AgentRef) (server : Text) :
    List AgentRefToolPolicy :=
  (ref.toolPolicies.getD []).filterMap fun (name, policy) =>
    if serverKey name = server then some (narrowingLayer policy) else none

/-- What a scope lets an agent do with a tool of a server. -/
def scopeToolPermission (serverKey : Text → Text) (scope : List ArtifactRef)
    (projectId slug server tool : Text) (readOnly : Bool) : ToolPermission :=
  (((coveringAgentRefs scope projectId slug).flatMap fun ref => ref.layers serverKey server).map
    fun layer => resolveToolPermission layer tool readOnly).foldl ToolPermission.stricter .allow

/-- `callerToolPolicies`; the root identity narrows nothing. -/
def callerToolPermission (serverKey : Text → Text) (identity : Identity)
    (projectId slug server tool : Text) (readOnly : Bool) : ToolPermission :=
  match identity.scope with
  | none => .allow
  | some scope => scopeToolPermission serverKey scope projectId slug server tool readOnly

end Catamorphic.Access
