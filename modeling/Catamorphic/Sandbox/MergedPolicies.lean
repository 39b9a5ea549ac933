import Catamorphic.Sandbox.ToolPolicy

/-!
# Merged policies

When the layers of two maps stand side by side, the stricter answer wins, as long as both sides have
layers: a side with an empty list is read as a server without rules, and the other side's layers
take its place.
-/

namespace Catamorphic.ToolPolicy

open Maps List

/-! ## The strictest answer -/

theorem rank_stricterPermission (a b : ToolPermission) :
    rank (stricterPermission a b) = min (rank a) (rank b) := by
  cases a <;> cases b <;> rfl

theorem stricterPermission_assoc (a b c : ToolPermission) :
    stricterPermission (stricterPermission a b) c =
      stricterPermission a (stricterPermission b c) := by
  cases a <;> cases b <;> cases c <;> rfl

theorem foldl_stricterPermission (a b : ToolPermission) (permissions : List ToolPermission) :
    permissions.foldl stricterPermission (stricterPermission a b) =
      stricterPermission a (permissions.foldl stricterPermission b) := by
  induction permissions generalizing b with
  | nil => rfl
  | cons c permissions ih =>
    rw [foldl_cons, foldl_cons, stricterPermission_assoc, ih]

section

variable {a b layers : McpToolPolicyLayers} {tool : Text}
  {annotations : Option ToolPolicyAnnotations}

/-- **Layers side by side answer as the stricter of the two**, where neither has none. -/
theorem across_append (ha : a ≠ []) (hb : b ≠ []) :
    resolveToolPermissionAcross (some (a ++ b)) tool annotations =
      stricterPermission (resolveToolPermissionAcross (some a) tool annotations)
        (resolveToolPermissionAcross (some b) tool annotations) := by
  obtain ⟨first, rest, rfl⟩ := exists_cons_of_ne_nil ha
  obtain ⟨next, others, rfl⟩ := exists_cons_of_ne_nil hb
  simp only [resolveToolPermissionAcross, cons_append, map_append, map_cons,
    foldl_append, foldl_cons]
  rw [foldl_stricterPermission]

/-- The layers are no looser than a server without rules. -/
def Guarded (layers : McpToolPolicyLayers) : Prop :=
  ∀ tool annotations, rank (resolveToolPermissionAcross (some layers) tool annotations) ≤
    rank (permissionFromAnnotations annotations)

/-- Side by side, layers are as strict as those of either side, if the empty side is guarded by
the other. -/
theorem across_append_le (h : a = [] → Guarded b) :
    rank (resolveToolPermissionAcross (some (a ++ b)) tool annotations) ≤
      rank (resolveToolPermissionAcross (some a) tool annotations) := by
  by_cases ha : a = []
  · subst ha
    exact h rfl tool annotations
  · by_cases hb : b = []
    · subst hb
      exact Nat.le_of_eq (by rw [append_nil])
    · rw [across_append ha hb, rank_stricterPermission]
      exact Nat.min_le_left _ _

theorem across_append_le' (h : b = [] → Guarded a) :
    rank (resolveToolPermissionAcross (some (a ++ b)) tool annotations) ≤
      rank (resolveToolPermissionAcross (some b) tool annotations) := by
  by_cases hb : b = []
  · subst hb
    rw [append_nil]
    exact h rfl tool annotations
  · by_cases ha : a = []
    · subst ha
      exact Nat.le_refl _
    · rw [across_append ha hb, rank_stricterPermission]
      exact Nat.min_le_right _ _

end

/-! ## The gate -/

section

variable {Input : Type} {gate : ToolGate Input} {call : ToolGateCall Input}
  {other : ToolGateCall Input}

/-- The call is let through. -/
def Runs (gate : ToolGate Input) (call : ToolGateCall Input) : Prop :=
  (gate.decide call).1 = .allowed

/-- The person who is asked lets the call through. -/
def Granted (gate : ToolGate Input) (call : ToolGateCall Input) : Prop :=
  ∃ ask remember, gate.ask = some ask ∧ ask call.request = .answered (.allow remember)

/-- **A call runs if it may, or if it must ask and is granted.** -/
theorem runs_iff : Runs gate call ↔
    gate.verdict call = .allow ∨ (gate.verdict call = .ask ∧ Granted gate call) := by
  unfold Runs ToolGate.decide ToolGate.verdict
  rcases call.layers with _ | layers
  · simp
  · dsimp only
    rcases resolveToolPermissionAcross (some layers) call.tool call.annotations with _ | _ | _
    · simp
    · rcases hremembered : gate.remembered.contains call.key with _ | _
      · simp only [Bool.and_false, reduceCtorEq, if_false, false_or, true_and]
        constructor
        · intro h
          rcases hask : gate.ask with _ | ask
          · rw [hask] at h
            cases h
          · rw [hask] at h
            dsimp only at h
            rcases hanswer : ask call.request with ⟨⟨remember⟩ | ⟨reason⟩⟩ | ⟨message⟩
            · exact ⟨ask, remember, hask, hanswer⟩
            · rw [hanswer] at h
              cases h
            · rw [hanswer] at h
              cases h
        · rintro ⟨ask, remember, hask, hanswer⟩
          rw [hask]
          dsimp only
          rw [hanswer]
      · simp
    · simp

/-- A call under the layers that a map has for its server. -/
def ToolGateCall.under (call : ToolGateCall Input) (map : Option PolicyMap) :
    ToolGateCall Input :=
  { call with layers := map.bind fun map => valueAt map call.server }

theorem verdict_le (hkey : other.key = call.key)
    (h : ∀ layers, other.layers = some layers → ∃ had, call.layers = some had ∧
      rank (resolveToolPermissionAcross (some had) call.tool call.annotations) ≤
        rank (resolveToolPermissionAcross (some layers) other.tool other.annotations)) :
    rank (gate.verdict call) ≤ rank (gate.verdict other) := by
  rcases hlayers : other.layers with _ | layers
  · have hallow : gate.verdict other = .allow := by rw [ToolGate.verdict, hlayers]
    rw [hallow]
    cases gate.verdict call <;> decide
  · obtain ⟨had, hhad, hle⟩ := h layers hlayers
    unfold ToolGate.verdict
    rw [hhad, hlayers, hkey]
    dsimp only
    revert hle
    generalize resolveToolPermissionAcross (some had) call.tool call.annotations = mine
    generalize resolveToolPermissionAcross (some layers) other.tool other.annotations = theirs
    cases mine <;> cases theirs <;> cases gate.remembered.contains call.key <;> decide

/-- What runs under stricter layers runs under looser ones. -/
theorem runs_of_verdict_le (hrequest : other.request = call.request)
    (hle : rank (gate.verdict call) ≤ rank (gate.verdict other)) (h : Runs gate call) :
    Runs gate other := by
  rw [runs_iff] at h ⊢
  rcases hother : gate.verdict other with _ | _ | _
  · exact .inl rfl
  · rcases h with hallow | ⟨hask, hgranted⟩
    · rw [hallow, hother] at hle
      exact absurd hle (by decide)
    · refine .inr ⟨rfl, ?_⟩
      obtain ⟨ask, remember, hask, hanswer⟩ := hgranted
      exact ⟨ask, remember, hask, hrequest ▸ hanswer⟩
  · rcases h with hallow | ⟨hask, -⟩
    · rw [hallow, hother] at hle
      exact absurd hle (by decide)
    · rw [hask, hother] at hle
      exact absurd hle (by decide)

end

/-! ## Server keys -/

section

theorem mem_dashed {inRun : Bool} {text : Text} :
    ∀ unit ∈ dashed inRun text, (isKeyUnit unit || unit = dash) = true := by
  induction text generalizing inRun with
  | nil => exact fun _ h => absurd h not_mem_nil
  | cons first rest ih =>
    rw [dashed]
    split
    · next hkey =>
      rintro unit (_ | ⟨_, h⟩)
      · rw [hkey, Bool.true_or]
      · exact ih unit h
    · split
      · exact ih
      · rintro unit (_ | ⟨_, h⟩)
        · rfl
        · exact ih unit h

theorem mem_trimDashes {text : Text} {unit : UInt16} (h : unit ∈ trimDashes text) :
    unit ∈ text := by
  rw [trimDashes, mem_reverse] at h
  exact (dropWhile_suffix _).subset
    (mem_reverse.mp ((dropWhile_suffix _).subset h))

/-- The one name that an object inherits and a server can have. -/
def constructorKey : Text := Text.ofString "constructor"

theorem inherited_serverKeyOf {lowered : Text → Text} {name : Text}
    (h : inheritedNames.contains (serverKeyOf lowered name) = true) :
    serverKeyOf lowered name = constructorKey := by
  have hunits : (serverKeyOf lowered name).all (fun unit => isKeyUnit unit || unit = dash) :=
    all_eq_true.mpr fun unit hunit => mem_dashed unit (mem_trimDashes hunit)
  have hall : ∀ key ∈ inheritedNames, key.all (fun unit => isKeyUnit unit || unit = dash) = true →
      key = constructorKey := by decide
  exact hall _ (contains_iff_mem.mp h) hunits

end

/-! ## Maps side by side -/

section

variable {map merged : PolicyMap} {entries : PolicyMap} {key : Text}

/-- Every entry's layers can be put beside what the map has. -/
def Mergeable (map entries : PolicyMap) : Prop :=
  ∀ entry ∈ entries, inheritedNames.contains entry.1 = true → (valueAt map entry.1).isSome

theorem layersIn_ok : (∃ layers, layersIn map key = .ok layers) ↔
    (inheritedNames.contains key = true → (valueAt map key).isSome) := by
  unfold layersIn
  rcases valueAt map key with _ | layers
  · rcases inheritedNames.contains key with _ | _
    · exact ⟨fun _ h => (by cases h), fun _ => ⟨[], rfl⟩⟩
    · exact ⟨fun ⟨_, h⟩ => (by cases h), fun h => (by cases h rfl)⟩
  · exact ⟨fun _ _ => rfl, fun _ => ⟨layers, rfl⟩⟩

theorem layersIn_eq {layers : McpToolPolicyLayers} (h : layersIn map key = .ok layers) :
    layers = (valueAt map key).getD [] := by
  unfold layersIn at h
  split at h
  · next had hhad =>
    rw [hhad]
    exact (Except.ok.inj h).symm
  · next hnone =>
    rw [hnone]
    split at h
    · cases h
    · exact (Except.ok.inj h).symm

/-- **Maps merge exactly if no entry stands under a name that is inherited and not set.** -/
theorem merge_ok_iff (hdistinct : Distinct entries) :
    (∃ merged, entries.foldlM mergeEntry map = .ok merged) ↔ Mergeable map entries := by
  induction entries generalizing map with
  | nil => exact ⟨fun _ _ h => absurd h not_mem_nil, fun _ => ⟨map, rfl⟩⟩
  | cons entry entries ih =>
    obtain ⟨hfirst, hrest⟩ := pairwise_cons.mp hdistinct
    have hothers : ∀ layers, Mergeable (setAt map entry.1 layers) entries ↔
        Mergeable map entries := by
      intro layers
      have hsame : ∀ other ∈ entries, valueAt (setAt map entry.1 layers) other.1 =
          valueAt map other.1 := fun other hother => by
        rw [valueAt_setAt, if_neg (hfirst other hother)]
      exact ⟨fun h other hother hin => hsame other hother ▸ h other hother hin,
        fun h other hother hin => (hsame other hother).symm ▸ h other hother hin⟩
    have hhead : Mergeable map (entry :: entries) ↔
        (∃ layers, layersIn map entry.1 = .ok layers) ∧ Mergeable map entries := by
      rw [layersIn_ok]
      exact forall_mem_cons
    rw [hhead, foldlM_cons, mergeEntry]
    rcases hlayers : layersIn map entry.1 with failure | layers
    · constructor
      · rintro ⟨merged, h⟩
        cases h
      · rintro ⟨⟨layers, h⟩, -⟩
        cases h
    · show (∃ merged, entries.foldlM mergeEntry (setAt map entry.1 (layers ++ entry.2)) =
        .ok merged) ↔ _
      rw [ih hrest, hothers]
      exact ⟨fun h => ⟨⟨layers, rfl⟩, h⟩, fun h => h.2⟩

/-- **What a merged map has for a server**: the layers of both sides, the base's first. -/
theorem valueAt_merge (hdistinct : Distinct entries)
    (h : entries.foldlM mergeEntry map = .ok merged) : valueAt merged key =
      ((valueAt entries key).map fun layers => (valueAt map key).getD [] ++ layers).or
        (valueAt map key) := by
  induction entries generalizing map with
  | nil =>
    obtain rfl := Except.ok.inj h
    rfl
  | cons entry entries ih =>
    obtain ⟨hfirst, hrest⟩ := pairwise_cons.mp hdistinct
    rw [foldlM_cons, mergeEntry] at h
    rcases hlayers : layersIn map entry.1 with failure | layers
    · rw [hlayers] at h
      cases h
    · rw [hlayers] at h
      rw [ih hrest h, valueAt_setAt, valueAt_cons, layersIn_eq hlayers]
      by_cases hkey : entry.1 = key
      · subst hkey
        have hnone : valueAt entries entry.1 = none := valueAt_eq_none fun value hmem =>
          hfirst _ hmem rfl
        rw [if_pos rfl, if_pos rfl, hnone]
        rfl
      · rw [if_neg hkey, if_neg hkey]

end

/-! ## Merging only narrows -/

/-- The layers that a map has for a server. -/
def layersFor (map : Option PolicyMap) (server : Text) : Option McpToolPolicyLayers :=
  map.bind fun map => valueAt map server

/-- Every call meets under one map what is at least as strict as under the other. -/
def AsStrict (map other : Option PolicyMap) : Prop :=
  ∀ (Input : Type) (gate : ToolGate Input) (call : ToolGateCall Input),
    rank (gate.verdict (call.under map)) ≤ rank (gate.verdict (call.under other)) ∧
      (Runs gate (call.under map) → Runs gate (call.under other))

/-- **Merging only narrows**: it succeeds, and the result is at least as strict as either side. -/
def MergesNarrow (base extra : Option PolicyMap) : Prop :=
  ∃ merged, mergePolicyLayers base extra = .ok merged ∧ AsStrict merged base ∧
    AsStrict merged extra ∧
    (∀ server, layersFor extra server = none → layersFor merged server = layersFor base server) ∧
    ∀ (Input : Type) (gate : ToolGate Input) (call : ToolGateCall Input) (layers),
      call.layers = some layers →
        resolveToolPermissionAcross (some layers) call.tool call.annotations = .deny →
          ¬ Runs gate call

/-- A server that extra adds layers to is not named as what every object inherits, unless the base
has it; and where one side has an empty list for it, the other's layers are guarded. -/
def Compatible (base extra : Option PolicyMap) : Prop :=
  ∀ entry ∈ extra.getD [], (entry.1 = constructorKey → (layersFor base entry.1).isSome) ∧
    ∀ had, layersFor base entry.1 = some had →
      (had = [] → Guarded entry.2) ∧ (entry.2 = [] → Guarded had)

section

variable {lowered : Text → Text} {base extra : Option PolicyMap}

theorem mergePolicyLayers_eq : mergePolicyLayers base extra = if extra.getD [] = [] then .ok base
    else ((extra.getD []).foldlM mergeEntry (base.getD [])).map some := by
  rcases extra with _ | ⟨_ | ⟨first, rest⟩⟩ <;> rfl

theorem layersFor_getD (map : Option PolicyMap) (server : Text) :
    layersFor map server = valueAt (map.getD []) server := by
  cases map <;> rfl

/-- What the merged map has for a server. -/
theorem layersFor_merged {merged : Option PolicyMap} (hdistinct : Distinct (extra.getD []))
    (h : mergePolicyLayers base extra = .ok merged) (server : Text) : layersFor merged server =
      ((layersFor extra server).map fun layers => (layersFor base server).getD [] ++ layers).or
        (layersFor base server) := by
  rw [mergePolicyLayers_eq] at h
  split at h
  · next hnone =>
    obtain rfl := Except.ok.inj h
    rw [layersFor_getD extra, hnone]
    rfl
  · rcases hfold : (extra.getD []).foldlM mergeEntry (base.getD []) with failure | map
    · rw [hfold] at h
      cases h
    · rw [hfold] at h
      obtain rfl := Except.ok.inj h
      rw [layersFor_getD extra, layersFor_getD base]
      exact valueAt_merge hdistinct hfold

theorem mergePolicyLayers_ok (hdistinct : Distinct (extra.getD []))
    (hkeyed : ∀ entry ∈ extra.getD [], ∃ name, entry.1 = serverKeyOf lowered name) :
    (∃ merged, mergePolicyLayers base extra = .ok merged) ↔
      ∀ entry ∈ extra.getD [], entry.1 = constructorKey → (layersFor base entry.1).isSome := by
  have hmergeable : Mergeable (base.getD []) (extra.getD []) ↔
      ∀ entry ∈ extra.getD [], entry.1 = constructorKey → (layersFor base entry.1).isSome := by
    refine forall₂_congr fun entry hentry => ?_
    obtain ⟨name, hname⟩ := hkeyed entry hentry
    rw [layersFor_getD]
    refine ⟨fun h heq => h (heq ▸ by decide), fun h hin => h ?_⟩
    rw [hname] at hin ⊢
    exact inherited_serverKeyOf hin
  rw [← hmergeable, ← merge_ok_iff hdistinct, mergePolicyLayers_eq]
  split
  · next hnone =>
    rw [hnone]
    exact ⟨fun _ => ⟨_, rfl⟩, fun _ => ⟨_, rfl⟩⟩
  · rcases (extra.getD []).foldlM mergeEntry (base.getD []) with failure | map
    · exact ⟨fun ⟨_, h⟩ => (by cases h), fun ⟨_, h⟩ => (by cases h)⟩
    · exact ⟨fun _ => ⟨_, rfl⟩, fun _ => ⟨_, rfl⟩⟩

theorem asStrict_of {map other : Option PolicyMap}
    (h : ∀ server layers, layersFor other server = some layers →
      ∃ had, layersFor map server = some had ∧ ∀ tool annotations,
        rank (resolveToolPermissionAcross (some had) tool annotations) ≤
          rank (resolveToolPermissionAcross (some layers) tool annotations)) :
    AsStrict map other := by
  intro Input gate call
  have hle : rank (gate.verdict (call.under map)) ≤ rank (gate.verdict (call.under other)) := by
    refine verdict_le rfl fun layers hlayers => ?_
    obtain ⟨had, hhad, hle⟩ := h call.server layers hlayers
    exact ⟨had, hhad, hle call.tool call.annotations⟩
  exact ⟨hle, runs_of_verdict_le rfl hle⟩

/-- What is at least as strict in every call has stricter layers. -/
theorem across_le_of_asStrict {map other : Option PolicyMap} (h : AsStrict map other)
    {server : Text} {had layers : McpToolPolicyLayers} (hhad : layersFor map server = some had)
    (hlayers : layersFor other server = some layers) (tool : Text)
    (annotations : Option ToolPolicyAnnotations) :
    rank (resolveToolPermissionAcross (some had) tool annotations) ≤
      rank (resolveToolPermissionAcross (some layers) tool annotations) := by
  -- Nothing is remembered, so that the gate answers as the layers do.
  have hle := (h Unit ⟨[], none⟩ ⟨server, tool, (), none, annotations, none, none⟩).1
  unfold ToolGate.verdict ToolGateCall.under at hle
  rw [show map.bind (fun map => valueAt map server) = some had from hhad,
    show other.bind (fun map => valueAt map server) = some layers from hlayers] at hle
  simpa using hle

theorem not_runs_denied {Input : Type} {gate : ToolGate Input} {call : ToolGateCall Input}
    {layers : McpToolPolicyLayers} (hlayers : call.layers = some layers)
    (h : resolveToolPermissionAcross (some layers) call.tool call.annotations = .deny) :
    ¬ Runs gate call := by
  have hverdict : gate.verdict call = .deny := by
    unfold ToolGate.verdict
    rw [hlayers]
    dsimp only
    rw [h]
    rfl
  rw [runs_iff, hverdict]
  rintro (h | ⟨h, -⟩) <;> cases h

/-- **Merging narrows exactly where the two maps are compatible.** -/
theorem mergesNarrow_iff (base extra : Option (Policies lowered)) :
    MergesNarrow (base.map Policies.map) (extra.map Policies.map) ↔
      Compatible (base.map Policies.map) (extra.map Policies.map) := by
  have hdistinct : Distinct ((extra.map Policies.map).getD []) := by
    rcases extra with _ | policies
    · exact List.Pairwise.nil
    · exact policies.distinct
  have hkeyed : ∀ entry ∈ (extra.map Policies.map).getD [],
      ∃ name, entry.1 = serverKeyOf lowered name := by
    rcases extra with _ | policies
    · exact fun _ h => absurd h not_mem_nil
    · exact policies.keyed
  constructor
  · rintro ⟨merged, hmerged, hbase, hextra, -, -⟩ entry hentry
    refine ⟨(mergePolicyLayers_ok hdistinct hkeyed).mp ⟨merged, hmerged⟩ entry hentry,
      fun had hhad => ?_⟩
    have hentry' : layersFor (extra.map Policies.map) entry.1 = some entry.2 := by
      rw [layersFor_getD]
      exact valueAt_of_mem hdistinct hentry
    have hboth : layersFor merged entry.1 = some (had ++ entry.2) := by
      rw [layersFor_merged hdistinct hmerged, hentry', hhad]
      rfl
    constructor
    · rintro rfl tool annotations
      exact across_le_of_asStrict hbase hboth hhad tool annotations
    · intro hnone tool annotations
      have hle := across_le_of_asStrict hextra hboth hentry' tool annotations
      rw [hnone, append_nil] at hle
      exact hle
  · intro h
    obtain ⟨merged, hmerged⟩ := (mergePolicyLayers_ok hdistinct hkeyed).mpr fun entry hentry =>
      (h entry hentry).1
    refine ⟨merged, hmerged, asStrict_of fun server had hhad => ?_,
      asStrict_of fun server layers hlayers => ?_, fun server hnone => ?_,
      fun Input gate call layers => not_runs_denied⟩
    · rw [layersFor_merged hdistinct hmerged, hhad]
      rcases hlayers : layersFor (extra.map Policies.map) server with _ | layers
      · exact ⟨had, rfl, fun _ _ => Nat.le_refl _⟩
      · refine ⟨had ++ layers, rfl, fun tool annotations => across_append_le ?_⟩
        rw [layersFor_getD] at hlayers
        exact ((h _ (mem_of_valueAt hlayers)).2 had hhad).1
    · rw [layersFor_merged hdistinct hmerged, hlayers]
      refine ⟨_, rfl, fun tool annotations => across_append_le' fun hnone => ?_⟩
      subst hnone
      rw [layersFor_getD] at hlayers
      rcases hhad : layersFor (base.map Policies.map) server with _ | had
      · exact fun _ _ => Nat.le_refl _
      · exact ((h _ (mem_of_valueAt hlayers)).2 had hhad).2 rfl
    · rw [layersFor_merged hdistinct hmerged, hnone]
      rfl

end

/-! ## Two merges that do not narrow -/

/-- One server's layers. -/
def policiesOf (server : Text) (layers : McpToolPolicyLayers)
    (h : server = serverKeyOf id server) : Policies id where
  map := [(server, layers)]
  distinct := pairwise_singleton _ _
  keyed entry hentry := by
    obtain rfl := mem_singleton.mp hentry
    exact ⟨server, h⟩

def slack : Text := Text.ofString "slack"

theorem slack_serverKeyOf : slack = serverKeyOf id slack := by decide

theorem constructorKey_serverKeyOf : constructorKey = serverKeyOf id constructorKey := by decide

/-- Every tool runs. -/
def allowing : McpToolPolicy := ⟨some (.permission .allow), none⟩

/-- No layers of a server ask; beside a layer that allows everything nobody is asked. And a server
that is named as what every object inherits fails the merge. -/
theorem merge_not_narrow : ¬ MergesNarrow (some (policiesOf slack [] slack_serverKeyOf).map)
      (some (policiesOf slack [allowing] slack_serverKeyOf).map) ∧
    ¬ MergesNarrow none
      (some (policiesOf constructorKey [allowing] constructorKey_serverKeyOf).map) := by
  constructor
  · rintro ⟨merged, hmerged, hbase, -⟩
    obtain rfl := Except.ok.inj hmerged
    have hle := @across_le_of_asStrict _ _ hbase slack [allowing] [] rfl rfl [] none
    exact absurd hle (by decide)
  · rintro ⟨merged, hmerged, -⟩
    cases hmerged

end Catamorphic.ToolPolicy
