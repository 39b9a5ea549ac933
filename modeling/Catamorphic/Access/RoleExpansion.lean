import Catamorphic.Access.RoleTemplates

/-!
# What a role's templates come to

`expandRole` gives one ref for each choice of granted values, and a ref covers what its filled
template says: the values are part of the text, as they are. A value that looks like a placeholder
stays as it is; a value that is `*`, or ends in `/**`, says what the same text in a role says.
-/

namespace Catamorphic.Access.Roles

open Maps List

/-! ## A template is its pieces -/

def Piece.text : Piece → Text
  | .char c => [c]
  | .placeholder param => '{' :: param ++ ['}']

theorem unread_text (pending : Option Text) : (unread pending).flatMap Piece.text =
    (pending.map fun name => '{' :: name).getD [] := by
  rcases pending with _ | name
  · rfl
  · simp [unread, Piece.text, flatMap_map]

theorem piecesFrom_text (pending : Option Text) (template : Text) :
    (piecesFrom pending template).flatMap Piece.text =
      (pending.map fun name => '{' :: name).getD [] ++ template := by
  induction template generalizing pending with
  | nil =>
    rw [append_nil]
    rcases pending with _ | name <;> exact unread_text _
  | cons c rest ih =>
    rcases pending with _ | name
    · rw [piecesFrom]
      split
      · next hbrace =>
        rw [ih, hbrace]
        rfl
      · rw [flatMap_cons, ih]
        rfl
    · rw [piecesFrom]
      split
      · rw [ih]
        simp
      · split
        · next hclose =>
          have hbrace : c = '}' := of_decide_eq_true (Bool.and_eq_true_iff.mp hclose).1
          rw [flatMap_cons, ih, hbrace]
          simp [Piece.text]
        · rw [flatMap_append, unread_text]
          split
          · next hbrace =>
            rw [ih, hbrace]
            rfl
          · rw [flatMap_cons, ih]
            rfl

/-- **A template is its pieces, one after the other.** -/
theorem pieces_text (template : Text) : (pieces template).flatMap Piece.text = template :=
  piecesFrom_text none template

/-! ## What a template comes to -/

/-- The template with a value put in for each placeholder, as it is. -/
def literal (value : Text → Text) (template : Text) : Text :=
  (pieces template).flatMap fun
    | .char c => [c]
    | .placeholder param => value param

/-- One granted value for each placeholder, put in literally. -/
def Fills (grants : RoleGrants) (template text : Text) : Prop :=
  ∃ value : Text → Text, (∀ param ∈ params template,
    ∃ values, valueAt grants param = some values ∧ value param ∈ values) ∧
      text = literal value template

variable {template : Text} {param : Text}

theorem mem_params : param ∈ params template ↔ .placeholder param ∈ pieces template := by
  rw [params, mem_eraseDups, mem_filterMap]
  constructor
  · rintro ⟨_ | found, hpiece, hparam⟩
    · cases hparam
    · cases hparam
      exact hpiece
  · exact fun h => ⟨_, h, rfl⟩

theorem literal_of_no_params (h : params template = []) (value : Text → Text) :
    literal value template = template := by
  refine Eq.trans (flatMap_congr fun piece hpiece => ?_) (pieces_text template)
  cases piece with
  | char c => rfl
  | placeholder param =>
    have hmem := mem_params.mpr hpiece
    rw [h] at hmem
    cases hmem

variable {ref : ArtifactRef} {refs : List ArtifactRef} {text : Text}

section

variable {grants : RoleGrants} {all partials : List Filling} {names : List Text} {Entry : Type}

theorem granted_ok {values : List Text} (h : granted grants param = .ok values) {value : Text} :
    value ∈ values ↔ ∃ given, valueAt grants param = some given ∧ value ∈ given := by
  unfold granted at h
  split at h
  · next given hgiven =>
    obtain rfl := Except.ok.inj h
    rw [hgiven]
    simp
  · next hnone =>
    rw [hnone]
    split at h
    · cases h
    · obtain rfl := Except.ok.inj h
      simp

/-- **The fillings are all choices of one granted value for each placeholder.** -/
theorem mem_fillings (hnodup : names.Nodup) (h : fillings grants names partials = .ok all)
    {filling : Filling} : filling ∈ all ↔ ∃ start ∈ partials, ∃ value : Text → Text,
      (∀ param ∈ names, ∃ values, valueAt grants param = some values ∧ value param ∈ values) ∧
        filling = names.foldl (fun filling param => setAt filling param (value param)) start := by
  induction names generalizing partials with
  | nil =>
    obtain rfl := Except.ok.inj h
    constructor
    · exact fun hmem => ⟨filling, hmem, id, fun _ hparam => absurd hparam not_mem_nil, rfl⟩
    · rintro ⟨start, hstart, -, -, rfl⟩
      exact hstart
  | cons name names ih =>
    obtain ⟨hnew, hrest⟩ := nodup_cons.mp hnodup
    rw [fillings] at h
    rcases hgranted : granted grants name with failure | ⟨_ | ⟨first, rest⟩⟩
    · rw [hgranted] at h
      cases h
    · rw [hgranted] at h
      obtain rfl := Except.ok.inj h
      refine ⟨fun hmem => absurd hmem not_mem_nil, ?_⟩
      rintro ⟨start, -, value, hvalue, -⟩
      exact absurd ((granted_ok hgranted).mpr (hvalue name (.head _))) not_mem_nil
    · rw [hgranted] at h
      rw [ih hrest h]
      constructor
      · rintro ⟨start, hstart, value, hvalue, rfl⟩
        obtain ⟨before, hbefore, hset⟩ := mem_flatMap.mp hstart
        obtain ⟨given, hgiven, rfl⟩ := mem_map.mp hset
        refine ⟨before, hbefore, fun param => if param = name then given else value param, ?_, ?_⟩
        · rintro param (_ | ⟨_, hparam⟩)
          · dsimp only
            rw [if_pos rfl]
            exact (granted_ok hgranted).mp hgiven
          · dsimp only
            rw [if_neg (show param ≠ name from fun heq => hnew (heq ▸ hparam))]
            exact hvalue param hparam
        · rw [foldl_cons]
          dsimp only
          rw [if_pos rfl]
          refine foldl_ext _ _ _ fun filling param hparam => ?_
          rw [if_neg (show param ≠ name from fun heq => hnew (heq ▸ hparam))]
      · rintro ⟨start, hstart, value, hvalue, rfl⟩
        refine ⟨setAt start name (value name), mem_flatMap.mpr ⟨start, hstart, ?_⟩, value,
          (List.forall_mem_cons.mp hvalue).2, rfl⟩
        exact mem_map_of_mem ((granted_ok hgranted).mpr (hvalue name (.head _)))

theorem put_foldl (value : Text → Text) :
    put ((params template).foldl (fun filling param => setAt filling param (value param)) [])
      template = literal value template := by
  refine flatMap_congr fun piece hpiece => ?_
  cases piece with
  | char c => rfl
  | placeholder param =>
    have hmem := mem_params.mpr hpiece
    have hdistinct : Distinct ((params template).map fun param => (param, ())) := by
      rw [distinct_iff_nodup, map_map]
      exact (map_id _).symm ▸ nodup_eraseDups _
    have hvalue := @valueAt_foldl_setAt Text Text _ param Unit
      ((params template).map fun param => (param, ())) hdistinct (fun param _ => value param) []
    rw [foldl_map, valueAt_of_mem hdistinct (mem_map_of_mem hmem)] at hvalue
    show (valueAt _ param).getD [] = value param
    rw [hvalue]
    rfl

/-- **A template comes to its literal fillings, and to nothing else.** -/
theorem mem_fillTemplate {texts : List Text}
    (h : fillTemplate template grants = .ok texts) : text ∈ texts ↔ Fills grants template text := by
  unfold fillTemplate at h
  split at h
  · next hnone =>
    obtain rfl := Except.ok.inj h
    rw [mem_singleton]
    constructor
    · rintro rfl
      refine ⟨id, fun param hparam => ?_, (literal_of_no_params hnone id).symm⟩
      rw [hnone] at hparam
      cases hparam
    · rintro ⟨value, -, rfl⟩
      exact literal_of_no_params hnone value
  · rcases hall : fillings grants (params template) [[]] with failure | all
    · rw [hall] at h
      cases h
    · rw [hall] at h
      obtain rfl := Except.ok.inj h
      have hmem := @mem_fillings grants all [[]] (params template) (nodup_eraseDups _) hall
      rw [mem_map]
      constructor
      · rintro ⟨filling, hfilling, rfl⟩
        obtain ⟨start, hstart, value, hvalue, rfl⟩ := hmem.mp hfilling
        obtain rfl := mem_singleton.mp hstart
        exact ⟨value, hvalue, put_foldl value⟩
      · rintro ⟨value, hvalue, rfl⟩
        exact ⟨_, hmem.mpr ⟨[], .head _, value, hvalue, rfl⟩, put_foldl value⟩

/-- A template without a placeholder that is inherited and not granted comes to something. -/
theorem fillings_ok (h : ∀ name ∈ names, inheritedNames.contains name = true →
    valueAt grants name ≠ none) : ∃ all, fillings grants names partials = .ok all := by
  induction names generalizing partials with
  | nil => exact ⟨partials, rfl⟩
  | cons name names ih =>
    have hgranted : ∃ values, granted grants name = .ok values := by
      unfold granted
      split
      · exact ⟨_, rfl⟩
      · next hnone =>
        rw [if_neg fun hin => h name (.head _) hin hnone]
        exact ⟨[], rfl⟩
    obtain ⟨_ | ⟨first, rest⟩, hvalues⟩ := hgranted
    · exact ⟨[], by rw [fillings, hvalues]⟩
    · rw [fillings, hvalues]
      exact ih (List.forall_mem_cons.mp h).2

/-- No placeholder is named as what every object inherits, unless it is granted. -/
def NoneInherited (grants : RoleGrants) (template : Text) : Prop :=
  ∀ name ∈ params template, inheritedNames.contains name = true → valueAt grants name ≠ none

theorem fillTemplate_ok (h : NoneInherited grants template) :
    ∃ texts, fillTemplate template grants = .ok texts := by
  unfold fillTemplate
  split
  · exact ⟨_, rfl⟩
  · obtain ⟨all, hall⟩ := @fillings_ok grants [[]] (params template) h
    rw [hall]
    exact ⟨_, rfl⟩

/-! ## What a role comes to -/

theorem mem_expandEach {entries : List Entry} {template : Entry → Text}
    {make : Entry → Text → ArtifactRef} (h : expandEach grants entries template make = .ok refs) :
    ref ∈ refs ↔ ∃ entry ∈ entries, ∃ text, Fills grants (template entry) text ∧
      ref = make entry text := by
  rw [expandEach] at h
  rcases hlists : entries.mapM fun entry => (fillTemplate (template entry) grants).map fun texts =>
      texts.map (make entry) with failure | lists
  · rw [hlists] at h
    cases h
  · rw [hlists] at h
    obtain rfl := Except.ok.inj h
    have hall := mapM_ok hlists
    rw [mem_flatten]
    have hone : ∀ entry list, (fillTemplate (template entry) grants).map
        (fun texts => texts.map (make entry)) = .ok list →
          (ref ∈ list ↔ ∃ text, Fills grants (template entry) text ∧ ref = make entry text) := by
      intro entry list hlist
      rcases htexts : fillTemplate (template entry) grants with failure | texts
      · rw [htexts] at hlist
        cases hlist
      · rw [htexts] at hlist
        obtain rfl := Except.ok.inj hlist
        rw [mem_map]
        exact exists_congr fun text =>
          and_congr (mem_fillTemplate htexts) ⟨Eq.symm, Eq.symm⟩
    constructor
    · rintro ⟨list, hlist, href⟩
      obtain ⟨entry, hentry, hmade⟩ := exists_of_forall₂ hall.flip hlist
      exact ⟨entry, hentry, (hone entry list hmade).mp href⟩
    · rintro ⟨entry, hentry, htext⟩
      obtain ⟨list, hlist, hmade⟩ := exists_of_forall₂ hall hentry
      exact ⟨list, hlist, (hone entry list hmade).mpr htext⟩

theorem expandEach_ok {entries : List Entry} {template : Entry → Text}
    {make : Entry → Text → ArtifactRef}
    (h : ∀ entry ∈ entries, NoneInherited grants (template entry)) :
    ∃ refs, expandEach grants entries template make = .ok refs := by
  obtain ⟨lists, hlists⟩ := @mapM_of_ok _ _ _ (fun entry =>
    (fillTemplate (template entry) grants).map fun texts => texts.map (make entry)) entries
    fun entry hentry => by
      obtain ⟨texts, htexts⟩ := fillTemplate_ok (h entry hentry)
      rw [htexts]
      exact ⟨_, rfl⟩
  rw [expandEach, hlists]
  exact ⟨_, rfl⟩

end

/-- A ref that a role's entry comes to, with the text that its template comes to. -/
inductive Expands (definition : RoleDefinition) (projectId : Text) (grants : RoleGrants) :
    Text → ArtifactRef → Prop
  | agent {entry : AgentEntry} {text : Text} (hentry : entry ∈ definition.agents)
      (h : Fills grants entry.name text) :
      Expands definition projectId grants text (agentRef projectId entry text)
  | workflow {template text : Text} (hentry : template ∈ definition.workflows)
      (h : Fills grants template text) :
      Expands definition projectId grants text (workflowRef projectId template text)
  | app {template text : Text} (hentry : template ∈ definition.apps)
      (h : Fills grants template text) :
      Expands definition projectId grants text (appRef projectId template text)
  | document {entry : DocumentEntry} {text : Text} (hentry : entry ∈ definition.documents)
      (h : Fills grants entry.path text) :
      Expands definition projectId grants text (documentRef projectId entry text)

/-- The templates of a role. -/
def RoleDefinition.templates (definition : RoleDefinition) : List Text :=
  definition.agents.map AgentEntry.name ++ definition.workflows ++ definition.apps ++
    definition.documents.map DocumentEntry.path

variable {target : ArtifactRef}

section

variable {definition : RoleDefinition} {projectId : Text} {grants : RoleGrants}

theorem mem_expandRole (h : expandRole definition projectId grants = .ok refs) :
    ref ∈ refs ↔ ∃ text, Expands definition projectId grants text ref := by
  obtain ⟨agents, hagents, h⟩ := bind_ok h
  obtain ⟨workflows, hworkflows, h⟩ := bind_ok h
  obtain ⟨apps, happs, h⟩ := bind_ok h
  obtain ⟨documents, hdocuments, h⟩ := bind_ok h
  obtain rfl := Except.ok.inj h
  rw [mem_eraseDups, mem_append, mem_append, mem_append,
    mem_expandEach hagents, mem_expandEach hworkflows, mem_expandEach happs,
    mem_expandEach hdocuments]
  constructor
  · rintro (((⟨entry, hentry, text, htext, rfl⟩ | ⟨entry, hentry, text, htext, rfl⟩) |
      ⟨entry, hentry, text, htext, rfl⟩) | ⟨entry, hentry, text, htext, rfl⟩)
    · exact ⟨text, .agent hentry htext⟩
    · exact ⟨text, .workflow hentry htext⟩
    · exact ⟨text, .app hentry htext⟩
    · exact ⟨text, .document hentry htext⟩
  · rintro ⟨text, hexpands⟩
    cases hexpands with
    | agent hentry htext => exact .inl (.inl (.inl ⟨_, hentry, text, htext, rfl⟩))
    | workflow hentry htext => exact .inl (.inl (.inr ⟨_, hentry, text, htext, rfl⟩))
    | app hentry htext => exact .inl (.inr ⟨_, hentry, text, htext, rfl⟩)
    | document hentry htext => exact .inr ⟨_, hentry, text, htext, rfl⟩

theorem expandRole_ok (h : ∀ template ∈ definition.templates, NoneInherited grants template) :
    ∃ refs, expandRole definition projectId grants = .ok refs := by
  have hmem : ∀ template, template ∈ definition.templates ↔
      ((template ∈ definition.agents.map AgentEntry.name ∨ template ∈ definition.workflows) ∨
        template ∈ definition.apps) ∨ template ∈ definition.documents.map DocumentEntry.path := by
    simp [RoleDefinition.templates, or_assoc]
  obtain ⟨agents, hagents⟩ := @expandEach_ok grants _ definition.agents AgentEntry.name
    (agentRef projectId) fun entry hentry =>
      h _ ((hmem _).mpr (.inl (.inl (.inl (mem_map_of_mem hentry)))))
  obtain ⟨workflows, hworkflows⟩ := @expandEach_ok grants _ definition.workflows id
    (workflowRef projectId) fun entry hentry => h _ ((hmem _).mpr (.inl (.inl (.inr hentry))))
  obtain ⟨apps, happs⟩ := @expandEach_ok grants _ definition.apps id
    (appRef projectId) fun entry hentry => h _ ((hmem _).mpr (.inl (.inr hentry)))
  obtain ⟨documents, hdocuments⟩ := @expandEach_ok grants _ definition.documents
    DocumentEntry.path (documentRef projectId) fun entry hentry =>
      h _ ((hmem _).mpr (.inr (mem_map_of_mem hentry)))
  rw [expandRole, hagents, hworkflows, happs, hdocuments]
  exact ⟨_, rfl⟩

/-- What a ref with this text covers: an artifact of that name, or every one of its kind where the
text is `*`; a document of that path, or of the subtree where the text ends so. -/
def Reads (ref : ArtifactRef) (text : Text) (target : ArtifactRef) : Prop :=
  (∃ kind projectId name, ref.named = some (kind, projectId, text) ∧
    target.named = some (kind, projectId, name) ∧ (text = name ∨ text = everyArtifact)) ∨
  ∃ entry other, ref = .document entry ∧ target = .document other ∧ entry.path = text ∧
    entry.projectId = other.projectId ∧
    (other.access = some .write → entry.access = some .write) ∧
    ((∃ x, text = x ++ tree ∧ Under x other.path) ∨ ¬ tree <:+ text ∧ text = other.path)

theorem covers_named {kind : Kind} {project text : Text}
    (h : ref.named = some (kind, project, text)) :
    entryCovers ref target = true ↔ Reads ref text target := by
  have hnot : ∀ entry, ref ≠ .document entry := by
    rintro entry rfl
    cases h
  rcases htarget : target.named with _ | ⟨kind', project', name⟩
  · refine ⟨fun hcovers => ?_, ?_⟩
    · cases target with
      | document other =>
        obtain ⟨entry, hentry, -⟩ := entryCovers_document.mp hcovers
        exact absurd hentry (hnot entry)
      | sessions project =>
        rw [entryCovers_sessions.mp hcovers] at h
        cases h
      | _ => cases htarget
    · rintro (⟨kind, project, name, -, hnamed, -⟩ | ⟨entry, -, hentry, -⟩)
      · rw [htarget] at hnamed
        cases hnamed
      · exact absurd hentry (hnot entry)
  · rw [entryCovers_named htarget]
    constructor
    · rintro ⟨found, hfound, hname⟩
      rw [h] at hfound
      cases hfound
      exact .inl ⟨_, _, name, h, htarget, hname⟩
    · rintro (⟨kind, project, other, hnamed, hother, hname⟩ | ⟨entry, -, hentry, -⟩)
      · rw [htarget] at hother
        cases hother
        exact ⟨text, hnamed, hname⟩
      · exact absurd hentry (hnot entry)

theorem covers_document {entry : DocumentRef} :
    entryCovers (.document entry) target = true ↔ Reads (.document entry) entry.path target := by
  have hnamed : ∀ kind project text,
      ArtifactRef.named (.document entry) ≠ some (kind, project, text) := by
    rintro kind project text h
    cases h
  cases target with
  | document other =>
    show documentRefCovers entry other = true ↔ _
    rw [documentRefCovers_path]
    constructor
    · rintro ⟨hproject, haccess, hpath⟩
      exact .inr ⟨entry, other, rfl, rfl, rfl, hproject, haccess, hpath⟩
    · rintro (⟨kind, project, name, h, -⟩ | ⟨entry', other', hentry, hother, -, hrest⟩)
      · exact absurd h (hnamed _ _ _)
      · cases hentry
        cases hother
        exact hrest
  | _ =>
    refine ⟨fun h => (by cases h), ?_⟩
    rintro (⟨kind, project, name, h, -⟩ | ⟨entry', other', -, hother, -⟩)
    · exact absurd h (hnamed _ _ _)
    · cases hother

theorem covers_iff (h : Expands definition projectId grants text ref) :
    entryCovers ref target = true ↔ Reads ref text target := by
  cases h with
  | agent hentry htext | workflow hentry htext | app hentry htext => exact covers_named rfl
  | document hentry htext => exact covers_document

/-- **Roles expand literally**: a role comes to one ref for each entry and each choice of granted
values, with the values put in as they are, and to no other; and a ref covers what its text says. -/
theorem expandRole_literal (definition : RoleDefinition) (projectId : Text) (grants : RoleGrants) :
    ((∀ template ∈ definition.templates, NoneInherited grants template) →
      ∃ refs, expandRole definition projectId grants = .ok refs) ∧
    ∀ refs, expandRole definition projectId grants = .ok refs →
      (∀ ref, ref ∈ refs ↔ ∃ text, Expands definition projectId grants text ref) ∧
      ∀ text ref, Expands definition projectId grants text ref →
        ∀ target, entryCovers ref target = true ↔ Reads ref text target :=
  ⟨expandRole_ok, fun _ h => ⟨fun _ => mem_expandRole h, fun _ _ hexpands _ => covers_iff hexpands⟩⟩

end

/-- A value of which looks like a placeholder. -/
def customerGrants : RoleGrants := [("customer".toList, ["acme".toList, "{customer}".toList])]

def customerRole : RoleDefinition where
  agents := [⟨"{customer}-agent".toList, none⟩]
  workflows := []
  apps := []
  documents := [⟨"store/{customer}/**".toList, some .write⟩]

theorem expandRole_literal_customer : ∃ refs,
    expandRole customerRole ['p'] customerGrants = .ok refs ∧
      (∀ ref, ref ∈ refs ↔ ∃ text, Expands customerRole ['p'] customerGrants text ref) ∧
      ∀ text ref, Expands customerRole ['p'] customerGrants text ref →
        ∀ target, entryCovers ref target = true ↔ Reads ref text target := by
  obtain ⟨hok, hall⟩ := expandRole_literal customerRole ['p'] customerGrants
  obtain ⟨refs, hrefs⟩ := hok (by unfold NoneInherited; decide)
  exact ⟨refs, hrefs, hall refs hrefs⟩

example : expandRole customerRole ['p'] customerGrants = .ok
    [.agent ⟨['p'], "acme-agent".toList, none⟩, .agent ⟨['p'], "{customer}-agent".toList, none⟩,
      .document ⟨['p'], "store/acme/**".toList, some .write⟩,
      .document ⟨['p'], "store/{customer}/**".toList, some .write⟩] := by rfl

/-- The values `*` and `docs/**` for a name and a path. -/
def starGrants : RoleGrants :=
  [("agent".toList, ["*".toList]), ("path".toList, ["docs/**".toList])]

def starRole : RoleDefinition where
  agents := [⟨"{agent}".toList, none⟩]
  workflows := []
  apps := []
  documents := [⟨"{path}".toList, none⟩]

/-- A member who was granted them reaches what neither of the texts is the id of. -/
theorem starRole_not_literal : ∃ refs, expandRole starRole ['p'] starGrants = .ok refs ∧
      ∃ ref ∈ refs, ref.named = some (.agent, ['p'], "*".toList) ∧
        entryCovers ref (.agent ⟨['p'], "other".toList, none⟩) = true ∧
      ∃ file ∈ refs, file = .document ⟨['p'], "docs/**".toList, none⟩ ∧
        entryCovers file (.document ⟨['p'], "docs/a".toList, none⟩) = true :=
  ⟨_, rfl, _, .head _, by decide, by decide, _, .tail _ (.head _), by decide, by decide⟩

end Catamorphic.Access.Roles
