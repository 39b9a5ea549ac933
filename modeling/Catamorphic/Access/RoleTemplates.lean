import Catamorphic.Access.Narrowing
import Catamorphic.Lib.Maps

/-!
# Role templates

A role's file names artifacts by templates, and what a member was granted is put in for their
placeholders: one ref for each combination of values. What a ref covers is told by the text that it
comes to, as if the role's file had it written out.
-/

namespace Catamorphic.Access.Roles

open Maps

/-- A member's values for each placeholder. -/
abbrev RoleGrants := List (Text × List Text)

/-! ## Templates -/

inductive Piece
  | char (c : Char)
  | placeholder (param : Text)
  deriving DecidableEq

/-- `[A-Za-z0-9_]` -/
def isParamChar (c : Char) : Bool := c.isAlphanum || c = '_'

/-- What was read as a placeholder so far, and is none. -/
def unread : Option Text → List Piece
  | none => []
  | some name => .char '{' :: name.map .char

/-- What `PLACEHOLDER` matches in a template, and the characters between. -/
def piecesFrom : Option Text → Text → List Piece
  | pending, [] => unread pending
  | none, c :: rest =>
    if c = '{' then piecesFrom (some []) rest else .char c :: piecesFrom none rest
  | some name, c :: rest =>
    if isParamChar c then piecesFrom (some (name ++ [c])) rest
    else if c = '}' && name ≠ [] then .placeholder name :: piecesFrom none rest
    else unread (some name) ++
      if c = '{' then piecesFrom (some []) rest else .char c :: piecesFrom none rest

def pieces (template : Text) : List Piece := piecesFrom none template

def Piece.param : Piece → Option Text
  | .char _ => none
  | .placeholder param => some param

/-- The placeholders that a template names, each once. -/
def params (template : Text) : List Text := ((pieces template).filterMap Piece.param).eraseDups

inductive Failure
  | typeError
  deriving DecidableEq

/-- The names under which every object inherits what is no list, and does not count as an empty
one. -/
def inheritedNames : List Text :=
  ["constructor", "hasOwnProperty", "isPrototypeOf", "propertyIsEnumerable", "__proto__",
    "__defineGetter__", "__defineSetter__", "__lookupGetter__", "__lookupSetter__"].map
      String.toList

/-- `grants[param]`, as the values there are. -/
def granted (grants : RoleGrants) (param : Text) : Except Failure (List Text) :=
  match valueAt grants param with
  | some values => .ok values
  | none => if inheritedNames.contains param then .error .typeError else .ok []

/-- Values for placeholders. -/
abbrev Filling := List (Text × Text)

/-- The fillings of placeholders, one after the other. -/
def fillings (grants : RoleGrants) : List Text → List Filling → Except Failure (List Filling)
  | [], partials => .ok partials
  | param :: params, partials =>
    match granted grants param with
    | .error failure => .error failure
    | .ok [] => .ok []
    | .ok (first :: rest) =>
      fillings grants params (partials.flatMap fun filling =>
        (first :: rest).map fun value => setAt filling param value)

/-- `template.replace(PLACEHOLDER, …)` -/
def put (filling : Filling) (template : Text) : Text :=
  (pieces template).flatMap fun
    | .char c => [c]
    | .placeholder param => (valueAt filling param).getD []

def fillTemplate (template : Text) (grants : RoleGrants) : Except Failure (List Text) :=
  if params template = [] then .ok [template]
  else (fillings grants (params template) [[]]).map fun all => all.map fun filling =>
    put filling template

/-! ## Roles -/

structure AgentEntry where
  name : Text
  toolPolicies : Option (List (Text × AgentRefToolPolicy))

structure DocumentEntry where
  path : Text
  access : Option Access

structure RoleDefinition where
  agents : List AgentEntry
  workflows : List Text
  apps : List Text
  documents : List DocumentEntry

/-- One loop over a role's entries of a kind. -/
def expandEach {Entry : Type} (grants : RoleGrants) (entries : List Entry) (template : Entry → Text)
    (ref : Entry → Text → ArtifactRef) : Except Failure (List ArtifactRef) :=
  (entries.mapM fun entry =>
    (fillTemplate (template entry) grants).map fun texts => texts.map (ref entry)).map
      List.flatten

def agentRef (projectId : Text) (entry : AgentEntry) (name : Text) : ArtifactRef :=
  .agent ⟨projectId, name, entry.toolPolicies⟩

def workflowRef (projectId : Text) (_ : Text) (name : Text) : ArtifactRef :=
  .workflow ⟨projectId, name⟩

def appRef (projectId : Text) (_ : Text) (name : Text) : ArtifactRef :=
  .app ⟨projectId, name, none, none⟩

def documentRef (projectId : Text) (entry : DocumentEntry) (path : Text) : ArtifactRef :=
  .document ⟨projectId, path, entry.access.filter (· = .write)⟩

def expandRole (definition : RoleDefinition) (projectId : Text) (grants : RoleGrants) :
    Except Failure (List ArtifactRef) := do
  let agents ← expandEach grants definition.agents AgentEntry.name (agentRef projectId)
  let workflows ← expandEach grants definition.workflows id (workflowRef projectId)
  let apps ← expandEach grants definition.apps id (appRef projectId)
  let documents ← expandEach grants definition.documents DocumentEntry.path (documentRef projectId)
  return (agents ++ workflows ++ apps ++ documents).eraseDups

example : pieces "a\x7bb\x7bc\x7d\x7b\x7d".toList =
    [.char 'a', .char '{', .char 'b', .placeholder ['c'], .char '{', .char '}'] := by decide

end Catamorphic.Access.Roles
