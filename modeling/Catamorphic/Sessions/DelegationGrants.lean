import Catamorphic.Lib.JsString

/-!
# Who an agent may start, and on what it runs

A delegation policy's grants say which agents an agent may start as its children and what it may
choose for them. One function chooses the grant that admits what is asked; another fills in the
model and the effort that a child runs on where nothing is asked.
-/

namespace Catamorphic.Sessions.Delegation

open Text

/-- `AGENT_EFFORT_LEVELS`, low to max. -/
inductive AgentEffort
  | low
  | medium
  | high
  | xhigh
  | max
  deriving DecidableEq

def AGENT_EFFORT_LEVELS : List AgentEffort := [.low, .medium, .high, .xhigh, .max]

def AgentEffort.name : AgentEffort → Text
  | .low => ofString "low"
  | .medium => ofString "medium"
  | .high => ofString "high"
  | .xhigh => ofString "xhigh"
  | .max => ofString "max"

/-- `AGENT_EFFORT_LEVELS.indexOf(effort)` -/
def level (effort : AgentEffort) : Nat := AGENT_EFFORT_LEVELS.idxOf effort

inductive ModelRule
  | any
  | fixed
  | list (models : List Text)

inductive EffortRule
  | any
  | fixed
  | atMostParent
  | list (efforts : List AgentEffort)

structure AgentDelegationGrant where
  agent : Text
  description : Option Text
  model : ModelRule
  effort : EffortRule
  delegate : Bool

structure AgentDelegationPolicy where
  agents : List AgentDelegationGrant

structure DelegationRequest where
  targetAgentId : Text
  sourceAgentId : Text
  projectId : Text
  model : Option Text
  effort : Option AgentEffort
  parentEffort : Option AgentEffort
  wildcardAdmits : Bool
  modelNames : Option (Text → List Text)

/-! ## Grants that name the target -/

def PROJECT_AGENT_ID_PREFIX : Text := ofString "project:"

def formatProjectAgentId (projectId slug : Text) : Text :=
  PROJECT_AGENT_ID_PREFIX ++ projectId ++ ofString ":" ++ slug

/-- `grant.agent.match(/^project:([^:]+)$/)` -/
def relativeSlug (agent : Text) : Option Text :=
  if PROJECT_AGENT_ID_PREFIX.isPrefixOf agent then
    let slug := agent.drop PROJECT_AGENT_ID_PREFIX.length
    if slug ≠ [] && !slug.contains 0x3A then some slug else none
  else none

def grantAgentId (grant : AgentDelegationGrant) (projectId : Text) : Text :=
  match relativeSlug grant.agent with
  | some slug => formatProjectAgentId projectId slug
  | none => grant.agent

def wildcard : Text := ofString "*"

/-- `names` -/
def namesAgent (grant : AgentDelegationGrant) (request : DelegationRequest) : Bool :=
  if grant.agent = ofString "self" then request.targetAgentId = request.sourceAgentId
  else if grant.agent = wildcard then false
  else grantAgentId grant request.projectId = request.targetAgentId

/-! ## What a grant takes -/

/-- `list.join(separator)` -/
def joined (separator : Text) : List Text → Text
  | [] => []
  | [text] => text
  | text :: texts => text ++ separator ++ joined separator texts

section

-- `toLowerCase`
variable (lower : Text → Text)

def listed (list : List Text) (model : Text) (modelNames : Option (Text → List Text)) : Bool :=
  let known := ((modelNames.map fun names => names model).getD [model]).map lower
  list.any fun entry => known.contains (lower entry)

def modelRefusal (grant : AgentDelegationGrant) (request : DelegationRequest) : Option Text :=
  match request.model, grant.model with
  | some _, .fixed => some (ofString "its model is fixed")
  | some model, .list models =>
    if listed lower models model request.modelNames then none
    else some (ofString "its model is one of " ++ joined (ofString ", ") models)
  | _, _ => none

def effortRefusal (grant : AgentDelegationGrant) (request : DelegationRequest) : Option Text :=
  match request.effort, grant.effort with
  | some _, .fixed => some (ofString "its effort is fixed")
  | some effort, .atMostParent =>
    -- A chat on its harness's default effort runs at least `low`.
    if level (request.parentEffort.getD .low) < level effort then
      match request.parentEffort with
      | some parent => some (ofString "its effort is at most this chat's, " ++ parent.name)
      | none => some (ofString ("this chat runs on its harness's default effort, " ++
          "so ask for low or leave effort out"))
    else none
  | some effort, .list efforts =>
    if efforts.contains effort then none
    else some (ofString "its effort is one of " ++
      joined (ofString ", ") (efforts.map AgentEffort.name))
  | _, _ => none

/-- Why the grant refuses the requested settings, if it does. -/
def settingsRefusal (grant : AgentDelegationGrant) (request : DelegationRequest) : Option Text :=
  (modelRefusal lower grant request).or (effortRefusal grant request)

inductive Choice
  | grant (grant : AgentDelegationGrant)
  | refusal (text : Text)

def candidates (policy : AgentDelegationPolicy) (request : DelegationRequest) :
    List AgentDelegationGrant :=
  let named := policy.agents.filter fun grant => namesAgent grant request
  if 0 < named.length then named
  else if request.wildcardAdmits then policy.agents.filter fun grant => grant.agent = wildcard
  else []

def who (request : DelegationRequest) : Text :=
  if request.targetAgentId = request.sourceAgentId then ofString "a copy of yourself"
  else ofString "agent " ++ request.targetAgentId

/-- The first of the grants that takes the settings, or why none does. -/
def firstGrant (request : DelegationRequest) (reasons : List Text) :
    List AgentDelegationGrant → Choice
  | [] => .refusal (ofString "You may start " ++ who request ++ ofString ", but " ++
      joined (ofString "; or ") reasons ++ ofString ".")
  | grant :: grants =>
    match settingsRefusal lower grant request with
    | none => .grant grant
    | some reason =>
      firstGrant request (if reasons.contains reason then reasons else reasons ++ [reason])
        grants

def chooseGrant (policy : AgentDelegationPolicy) (request : DelegationRequest) : Choice :=
  match candidates policy request with
  | [] => .refusal (ofString "You may not start " ++ who request ++ ofString ".")
  | grants => firstGrant lower request [] grants

/-! ## What a child runs on -/

structure Settings where
  model : Option Text
  effort : Option AgentEffort

structure ChildInput where
  grant : AgentDelegationGrant
  copy : Bool
  requested : Settings
  parent : Settings
  parentEffort : Option AgentEffort
  own : Settings
  modelNames : Option (Text → List Text)

def childModel (input : ChildInput) : Option Text :=
  let model := input.requested.model.or (if input.copy then input.parent.model else none)
  match input.grant.model with
  | .list models =>
    if input.requested.model = none &&
        !(model.or input.own.model).any fun running =>
          listed lower models running input.modelNames then
      models.head?
    else model
  | _ => model

def childEffort (input : ChildInput) : Option AgentEffort :=
  let effort := input.requested.effort.or
    (if input.copy && input.requested.model = none then input.parent.effort else none)
  let running := effort.or input.own.effort
  match input.grant.effort with
  | .list efforts =>
    if input.requested.effort = none && !running.any efforts.contains then efforts.head?
    else effort
  | .atMostParent =>
    match input.parentEffort, running with
    | some parent, some effort' => if level parent < level effort' then some parent else effort
    | _, _ => effort
  | _ => effort

/-- The effort that a grant's rule makes of what the child would have. -/
def ruled (input : ChildInput) (effort : Option AgentEffort) : Option AgentEffort :=
  match input.grant.effort with
  | .list efforts =>
    if !(effort.or input.own.effort).any efforts.contains then efforts.head? else effort
  | .atMostParent =>
    match input.parentEffort, effort.or input.own.effort with
    | some parent, some running => if level parent < level running then some parent else effort
    | _, _ => effort
  | _ => effort

def childSettings (input : ChildInput) : Settings := ⟨childModel lower input, childEffort input⟩

end

end Catamorphic.Sessions.Delegation
