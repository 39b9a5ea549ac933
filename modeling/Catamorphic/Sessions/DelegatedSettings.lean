import Catamorphic.Sessions.DelegationGrants

/-!
# A delegated agent runs within its grant

The grant is chosen by what is asked; what the child runs on is filled in by other rules, where
nothing is asked. Both come to the same, but for one pair: a copy that the grant's list puts on
another model keeps the effort that was chosen for the parent's.
-/

namespace Catamorphic.Sessions.Delegation

open List Option

section

variable {lower : Text → Text} {policy : AgentDelegationPolicy} {request : DelegationRequest}
  {grant : AgentDelegationGrant}

/-! ## The chosen grant -/

theorem firstGrant_grant {reasons : List Text} {grants : List AgentDelegationGrant}
    (h : firstGrant lower request reasons grants = .grant grant) :
    grant ∈ grants ∧ settingsRefusal lower grant request = none := by
  induction grants generalizing reasons with
  | nil => cases h
  | cons first grants ih =>
    rw [firstGrant] at h
    rcases hrefusal : settingsRefusal lower first request with _ | reason
    · rw [hrefusal] at h
      obtain rfl := Choice.grant.inj h
      exact ⟨.head _, hrefusal⟩
    · rw [hrefusal] at h
      obtain ⟨hmem, hnone⟩ := ih h
      exact ⟨mem_cons_of_mem _ hmem, hnone⟩

/-- **The chosen grant is a candidate that takes what is asked.** -/
theorem chooseGrant_grant (h : chooseGrant lower policy request = .grant grant) :
    grant ∈ candidates policy request ∧ settingsRefusal lower grant request = none := by
  unfold chooseGrant at h
  split at h
  · cases h
  · exact firstGrant_grant h

theorem not_names_of_wildcard (h : grant.agent = wildcard) : namesAgent grant request = false := by
  rw [namesAgent, h, if_neg (by decide), if_pos rfl]

/-- **A wildcard decides only where no grant names the target.** -/
theorem wildcard_candidate (h : grant ∈ candidates policy request)
    (hwild : grant.agent = wildcard) :
    ∀ other ∈ policy.agents, namesAgent other request = false := by
  intro other hother
  rw [candidates] at h
  split at h
  · have hnamed := (mem_filter.mp h).2
    rw [not_names_of_wildcard hwild] at hnamed
    cases hnamed
  · next hnone =>
    by_contra hnames
    have hmem : other ∈ policy.agents.filter fun grant => namesAgent grant request :=
      mem_filter.mpr ⟨hother, (Bool.not_eq_false _).mp hnames⟩
    exact hnone (length_pos_of_mem hmem)

section

variable (h : settingsRefusal lower grant request = none)
include h

theorem listed_of_taken {model : Text} {models : List Text} (hmodel : request.model = some model)
    (hrule : grant.model = .list models) : listed lower models model request.modelNames = true := by
  have hnone := (or_eq_none_iff.mp h).1
  rw [modelRefusal, hmodel, hrule] at hnone
  by_contra hlisted
  simp [hlisted] at hnone

theorem not_fixed_of_taken (hrule : grant.model = .fixed) : request.model = none := by
  have hnone := (or_eq_none_iff.mp h).1
  rcases hmodel : request.model with _ | model
  · rfl
  · rw [modelRefusal, hmodel, hrule] at hnone
    cases hnone

theorem not_fixedEffort_of_taken (hrule : grant.effort = .fixed) : request.effort = none := by
  have hnone := (or_eq_none_iff.mp h).2
  rcases heffort : request.effort with _ | effort
  · rfl
  · rw [effortRefusal, heffort, hrule] at hnone
    cases hnone

theorem mem_of_taken {effort : AgentEffort} {efforts : List AgentEffort}
    (heffort : request.effort = some effort)
    (hrule : grant.effort = .list efforts) : effort ∈ efforts := by
  have hnone := (or_eq_none_iff.mp h).2
  rw [effortRefusal, heffort, hrule] at hnone
  by_contra hmem
  simp [hmem] at hnone

end

end

/-! ## What the child runs on -/

/-- What a child of this grant is started with. -/
def childInput (request : DelegationRequest) (grant : AgentDelegationGrant) (copy : Bool)
    (parent own : Settings) : ChildInput where
  grant := grant
  copy := copy
  requested := ⟨request.model, request.effort⟩
  parent := parent
  parentEffort := request.parentEffort
  own := own
  modelNames := request.modelNames

section

variable (lower : Text → Text) (input : ChildInput)

/-- The child's settings, or the target's own where these leave one out. -/
def runsOn : Settings :=
  ⟨(childSettings lower input).model.or input.own.model,
    (childSettings lower input).effort.or input.own.effort⟩

/-- What the child runs on is within the grant, and nothing was asked that the grant fixes. -/
structure Satisfies : Prop where
  model : ∀ models, input.grant.model = .list models → models ≠ [] →
    ∃ model, (runsOn lower input).model = some model ∧
      (model ∈ models ∨ listed lower models model input.modelNames = true)
  effort : ∀ efforts, input.grant.effort = .list efforts → efforts ≠ [] →
    ∃ effort, (runsOn lower input).effort = some effort ∧ effort ∈ efforts
  ceiling : input.grant.effort = .atMostParent → ∀ parent effort,
    input.parentEffort = some parent → (runsOn lower input).effort = some effort →
      level effort ≤ level parent
  fixedModel : input.grant.model = .fixed → input.requested.model = none
  fixedEffort : input.grant.effort = .fixed → input.requested.effort = none

/-- What the parent's chat runs on, where the child is a copy. -/
def parentModel : Option Text := input.parent.model.or input.own.model

/-- The child has the parent's effort, and would not have it if the parent had none. -/
def Inherits : Prop :=
  ∃ effort, input.parent.effort = some effort ∧ (childSettings lower input).effort = some effort ∧
    (childSettings lower { input with parent := ⟨input.parent.model, none⟩ }).effort ≠ some effort

/-- The child is a copy on another model than the parent's. -/
def OtherModel : Prop :=
  input.copy = true ∧ (runsOn lower input).model ≠ parentModel input

/-- The grant's list replaces the parent's model. -/
def ReplacesModel : Prop :=
  ∃ models, input.grant.model = .list models ∧
    (parentModel input).any (fun model => listed lower models model input.modelNames) = false ∧
    models.head?.or input.own.model ≠ parentModel input

/-- The grant's rule leaves the parent's effort as it is, and does not itself come to it. -/
def KeepsEffort : Prop :=
  ∃ effort, input.parent.effort = some effort ∧
    match input.grant.effort with
    | .any | .fixed => True
    | .list efforts => effort ∈ efforts ∧
        (efforts.head? = some effort → ∃ own ∈ input.own.effort, own ∈ efforts)
    | .atMostParent => ∀ parent, input.parentEffort = some parent →
        level effort ≤ level parent ∧
          (parent = effort → ∀ own, input.own.effort = some own → level own ≤ level parent)

/-- A copy of which neither model nor effort is asked, that gets another model and the parent's
effort. -/
def CarriesOver : Prop :=
  input.copy = true ∧ input.requested.model = none ∧ input.requested.effort = none ∧
    ReplacesModel lower input ∧ KeepsEffort input

end

section

variable {lower : Text → Text} {policy : AgentDelegationPolicy} {request : DelegationRequest}
  {grant : AgentDelegationGrant} {copy : Bool} {parent own : Settings} {input : ChildInput}

/-- **What the child runs on is within its grant.** -/
theorem satisfies_of_taken (h : settingsRefusal lower grant request = none) :
    Satisfies lower (childInput request grant copy parent own) := by
  constructor
  · intro models hrule hne
    replace hrule : grant.model = .list models := hrule
    obtain ⟨first, rest, rfl⟩ := exists_cons_of_ne_nil hne
    show ∃ model, (childModel lower (childInput request grant copy parent own)).or own.model =
      some model ∧ _
    unfold childModel childInput
    rw [hrule]
    dsimp only
    rcases hmodel : request.model with _ | model
    · generalize (Option.or none (if copy = true then parent.model else none)) = base
      rcases hrunning : base.or own.model with _ | running
      · exact ⟨first, rfl, .inl (.head _)⟩
      · rcases hlisted : listed lower (first :: rest) running request.modelNames with _ | _
        · simp [hlisted]
        · simp [hlisted, hrunning]
    · exact ⟨model, rfl, .inr (listed_of_taken h hmodel hrule)⟩
  · intro efforts hrule hne
    replace hrule : grant.effort = .list efforts := hrule
    obtain ⟨first, rest, rfl⟩ := exists_cons_of_ne_nil hne
    show ∃ effort, (childEffort (childInput request grant copy parent own)).or own.effort =
      some effort ∧ _
    unfold childEffort childInput
    rw [hrule]
    dsimp only
    rcases heffort : request.effort with _ | effort
    · generalize (Option.or none
        (if (copy && decide (request.model = none)) = true then parent.effort else none)) = base
      rcases hrunning : base.or own.effort with _ | running
      · exact ⟨first, rfl, .head _⟩
      · rcases hmem : (first :: rest).contains running with _ | _
        · refine ⟨first, ?_, .head _⟩
          simp only [any_some, hmem]
          rfl
        · refine ⟨running, ?_, contains_iff_mem.mp hmem⟩
          simp only [any_some, hmem]
          exact hrunning
    · exact ⟨effort, rfl, mem_of_taken h heffort hrule⟩
  · intro hrule ceiling effort hceiling hruns
    replace hrule : grant.effort = .atMostParent := hrule
    replace hceiling : request.parentEffort = some ceiling := hceiling
    replace hruns : (childEffort (childInput request grant copy parent own)).or own.effort =
      some effort := hruns
    unfold childEffort childInput at hruns
    rw [hrule, hceiling] at hruns
    dsimp only at hruns
    generalize (request.effort.or
      (if (copy && decide (request.model = none)) = true then parent.effort else none)) = base
      at hruns
    rcases hrunning : base.or own.effort with _ | running
    · rw [hrunning] at hruns
      rw [hrunning] at hruns
      cases hruns
    · rw [hrunning] at hruns
      dsimp only at hruns
      split at hruns
      · cases hruns
        exact Nat.le_refl _
      · next hle =>
        rw [hrunning] at hruns
        cases hruns
        exact Nat.le_of_not_lt hle
  · exact not_fixed_of_taken h
  · exact not_fixedEffort_of_taken h

/-! ## The parent's effort -/

section

variable (hcopy : input.copy = true) (hmodel : input.requested.model = none)
include hcopy hmodel

theorem childEffort_eq (heffort : input.requested.effort = none) :
    childEffort input = ruled input input.parent.effort := by
  unfold childEffort ruled
  rw [hcopy, hmodel, heffort]
  simp

omit hcopy hmodel in
/-- Where an effort is asked, or a model, or the child is no copy, the parent's effort is nothing to
the child. -/
theorem not_inherits (h : ¬ (input.copy = true ∧ input.requested.model = none ∧
    input.requested.effort = none)) : ¬ Inherits lower input := by
  rintro ⟨effort, -, hhas, hnot⟩
  refine hnot (Eq.trans ?_ hhas)
  have hbase : ∀ other, input.requested.effort.or
      (if input.copy && input.requested.model = none then other else none) =
        input.requested.effort := by
    intro other
    rcases heffort : input.requested.effort with _ | asked
    · rw [none_or, if_neg]
      intro hboth
      obtain ⟨hcopy, hmodel⟩ := Bool.and_eq_true_iff.mp hboth
      exact h ⟨hcopy, of_decide_eq_true hmodel, heffort⟩
    · rfl
  show childEffort _ = childEffort _
  unfold childEffort
  rw [hbase, hbase]

theorem inherits_iff
    (heffort : input.requested.effort = none) : Inherits lower input ↔ KeepsEffort input := by
  refine exists_congr fun effort => and_congr_right fun hparent => ?_
  show childEffort input = some effort ∧ childEffort { input with
    parent := ⟨input.parent.model, none⟩ } ≠ some effort ↔ _
  rw [childEffort_eq hcopy hmodel heffort,
    @childEffort_eq { input with parent := ⟨input.parent.model, none⟩ } hcopy hmodel heffort,
    hparent]
  unfold ruled
  rcases input.grant.effort with _ | _ | _ | efforts
  · simp
  · simp
  · simp only [none_or, some_or]
    rcases hceiling : input.parentEffort with _ | ceiling
    · simp
    · have hours : (if level ceiling < level effort then some ceiling else some effort) =
          some effort ↔ level effort ≤ level ceiling := by
        split
        · next hlt =>
          refine ⟨fun heq => ?_, fun hle => absurd hle (Nat.not_le_of_lt hlt)⟩
          exact Nat.le_of_eq (congrArg level (some.inj heq).symm)
        · next hnot => exact ⟨fun _ => Nat.le_of_not_lt hnot, fun _ => rfl⟩
      rw [hours]
      rcases hown : input.own.effort with _ | own
      · simp
      · dsimp only
        split
        · next hlt =>
          simp only [ne_eq, some.injEq, forall_eq']
          refine and_congr_right fun _ => ⟨fun hne heq => absurd heq hne, fun hle heq => ?_⟩
          exact absurd (hle heq) (Nat.not_le_of_lt hlt)
        · next hnot => simpa using fun _ _ => Nat.le_of_not_lt hnot
  · by_cases hmem : effort ∈ efforts
    · have hstands : ¬ (!((some effort).or input.own.effort).any efforts.contains) = true := by
        simp [hmem]
      rcases hown : input.own.effort with _ | own
      · simp [hmem]
      · by_cases hin : own ∈ efforts
        · simp [hmem, hin]
        · simp [hmem, hin]
    · have hgives : (!((some effort).or input.own.effort).any efforts.contains) = true := by
        simp [hmem]
      dsimp only
      rw [if_pos hgives]
      refine ⟨fun h => absurd (mem_of_head? h.1) hmem, fun h => absurd h.1 hmem⟩

theorem otherModel_iff : OtherModel lower input ↔ ReplacesModel lower input := by
  have hruns : (runsOn lower input).model = (childModel lower input).or input.own.model := rfl
  rw [OtherModel, hruns]
  unfold childModel ReplacesModel parentModel
  rw [hcopy, hmodel]
  rcases input.grant.model with _ | _ | models
  · simp
  · simp
  · simp only [true_and]
    rcases hlisted : (input.parent.model.or input.own.model).any fun model =>
        listed lower models model input.modelNames with _ | _
    · simp [hlisted]
    · simp [hlisted]

end

/-- **A copy has the parent's effort on another model exactly where the grant's list replaces the
parent's model and its rule leaves the effort.** -/
theorem carriesOver_iff : OtherModel lower input ∧ Inherits lower input ↔
    CarriesOver lower input := by
  constructor
  · rintro ⟨hother, hinherits⟩
    by_cases h : input.copy = true ∧ input.requested.model = none ∧ input.requested.effort = none
    · obtain ⟨hcopy, hmodel, heffort⟩ := h
      exact ⟨hcopy, hmodel, heffort, (otherModel_iff hcopy hmodel).mp hother,
        (inherits_iff hcopy hmodel heffort).mp hinherits⟩
    · exact absurd hinherits (not_inherits h)
  · rintro ⟨hcopy, hmodel, heffort, hreplaces, hkeeps⟩
    exact ⟨(otherModel_iff hcopy hmodel).mpr hreplaces,
      (inherits_iff hcopy hmodel heffort).mpr hkeeps⟩

/-- **A delegated agent runs within its grant**: what it runs on satisfies the grant, a wildcard was
chosen only if no grant names the target, and a copy on another model has an effort of its own. -/
structure WithinGrant (lower : Text → Text) (policy : AgentDelegationPolicy)
    (request : DelegationRequest) (input : ChildInput) : Prop where
  satisfies : Satisfies lower input
  wildcard : input.grant.agent = wildcard →
    ∀ other ∈ policy.agents, namesAgent other request = false
  effort : OtherModel lower input → ¬ Inherits lower input

/-- **A child of the chosen grant runs within it exactly unless it is a copy that carries the
parent's effort over to a model that the grant's list put in place of the parent's.** -/
theorem withinGrant_iff (h : chooseGrant lower policy request = .grant grant) :
    WithinGrant lower policy request (childInput request grant copy parent own) ↔
      ¬ CarriesOver lower (childInput request grant copy parent own) := by
  obtain ⟨hcandidate, htaken⟩ := chooseGrant_grant h
  constructor
  · intro hwithin hcarries
    obtain ⟨hother, hinherits⟩ := carriesOver_iff.mpr hcarries
    exact hwithin.effort hother hinherits
  · intro hnot
    exact ⟨satisfies_of_taken htaken, wildcard_candidate hcandidate,
      fun hother hinherits => hnot (carriesOver_iff.mp ⟨hother, hinherits⟩)⟩

end

/-! ## A copy on a listed model -/

def opus : Text := Text.ofString "opus"

/-- Copies run on one model. -/
def opusGrant : AgentDelegationGrant := ⟨Text.ofString "self", none, .list [opus], .any, true⟩

def copyRequest (model : Option Text) : DelegationRequest where
  targetAgentId := Text.ofString "coder"
  sourceAgentId := Text.ofString "coder"
  projectId := Text.ofString "p"
  model := model
  effort := none
  parentEffort := some .max
  wildcardAdmits := false
  modelNames := none

def sonnetSettings : Settings := ⟨some (Text.ofString "sonnet"), some .max⟩

/-- Asked for the model, the copy has an effort of its own. -/
theorem withinGrant_iff_asked : WithinGrant id ⟨[opusGrant]⟩ (copyRequest (some opus))
    (childInput (copyRequest (some opus)) opusGrant true sonnetSettings ⟨none, none⟩) := by
  refine (withinGrant_iff rfl).mpr ?_
  rintro ⟨-, hmodel, -⟩
  cases hmodel

/-- The parent runs on `sonnet` with effort `max`; its copy runs on `opus` with `max` as well. -/
theorem copy_carries_effort : chooseGrant id ⟨[opusGrant]⟩ (copyRequest none) = .grant opusGrant ∧
    ¬ WithinGrant id ⟨[opusGrant]⟩ (copyRequest none)
      (childInput (copyRequest none) opusGrant true sonnetSettings ⟨none, none⟩) := by
  have hcarries : CarriesOver id
      (childInput (copyRequest none) opusGrant true sonnetSettings ⟨none, none⟩) :=
    ⟨rfl, rfl, rfl, ⟨[opus], rfl, by decide, by decide⟩, .max, rfl, trivial⟩
  obtain ⟨hother, hinherits⟩ := carriesOver_iff.mpr hcarries
  exact ⟨rfl, fun hwithin => hwithin.effort hother hinherits⟩

end Catamorphic.Sessions.Delegation
