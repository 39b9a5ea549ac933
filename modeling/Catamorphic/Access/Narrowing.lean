import Catamorphic.Access.Permissions

/-!
# What narrowing keeps

A narrowed scope covers nothing that the scope or the identity does not, but for a held path that
names a tree as a file. It keeps every layer of the scope's tool policies; the layers of the
identity it keeps only where an agent `*` without policies is replaced by the identity's own refs.
-/

namespace Catamorphic.Access

open List

variable {held scope : List ArtifactRef} {permissions : List ProjectPermissionRef}

/-! ## Paths -/

/-- A path of the tree at `x`: `x` itself, or below it. -/
def Under (x path : Text) : Prop :=
  path = x ∨ (x ++ ['/']) <+: path

theorem append_tree (y : Text) : y ++ tree = (y ++ ['/']) ++ ['*', '*'] := by
  rw [tree, append_assoc]
  rfl

variable {x : Text}

theorem documentRefCovers_tree {entry ref : DocumentRef} (h : entry.path = x ++ tree) :
    documentRefCovers entry ref = true ↔ entry.projectId = ref.projectId ∧
      (ref.access = some .write → entry.access = some .write) ∧ Under x ref.path := by
  have htree : tree.isSuffixOf entry.path = true :=
    isSuffixOf_iff_suffix.mpr ⟨x, h.symm⟩
  have hpath : entry.path = (x ++ ['/']) ++ ['*', '*'] := h.trans (append_tree x)
  have hstart : entry.path.take (entry.path.length - 2) = x ++ ['/'] := by
    rw [hpath, length_append]
    exact take_left' rfl
  rw [documentRefCovers]
  by_cases hproject : entry.projectId = ref.projectId
  · by_cases haccess : ref.access = some .write ∧ entry.access ≠ some .write
    · simp [haccess]
    · rw [if_neg (not_not.mpr hproject), if_neg haccess, if_pos htree, hstart]
      simp only [dropLast_concat, Bool.or_eq_true, decide_eq_true_eq, isPrefixOf_iff_prefix]
      exact ⟨fun hunder => ⟨hproject, not_and_not_right.mp haccess, hunder⟩, fun hall => hall.2.2⟩
  · simp [hproject]

theorem documentRefCovers_file {entry ref : DocumentRef} (h : ¬tree <:+ entry.path) :
    documentRefCovers entry ref = true ↔ entry.projectId = ref.projectId ∧
      (ref.access = some .write → entry.access = some .write) ∧ entry.path = ref.path := by
  have htree : tree.isSuffixOf entry.path ≠ true :=
    fun hsuffix => h (isSuffixOf_iff_suffix.mp hsuffix)
  rw [documentRefCovers]
  by_cases hproject : entry.projectId = ref.projectId
  · by_cases haccess : ref.access = some .write ∧ entry.access ≠ some .write
    · simp [haccess]
    · rw [if_neg (not_not.mpr hproject), if_neg haccess, if_neg htree, decide_eq_true_eq]
      exact ⟨fun heq => ⟨hproject, not_and_not_right.mp haccess, heq⟩, fun hall => hall.2.2⟩
  · simp [hproject]

/-- A prefix that ends in a slash ends no later than the last slash of the path. -/
theorem under_slash {y rest : Text} (h : (x ++ ['/']) <+: (y ++ ['/']) ++ rest) (hno : '/' ∉ rest) :
    (x ++ ['/']) <+: y ++ ['/'] := by
  by_cases hlength : (x ++ ['/']).length ≤ (y ++ ['/']).length
  · exact prefix_of_prefix_length_le h (prefix_append _ _) hlength
  · obtain ⟨more, hmore⟩ :=
      prefix_of_prefix_length_le (prefix_append _ _) h (Nat.le_of_not_le hlength)
    obtain ⟨after, hafter⟩ := h
    rw [← hmore, append_assoc, append_cancel_left_eq] at hafter
    rcases eq_nil_or_concat more with rfl | ⟨before, last, rfl⟩
    · rw [append_nil] at hmore
      exact hmore ▸ prefix_refl _
    · rw [concat_eq_append, ← append_assoc] at hmore
      obtain ⟨-, hlast⟩ := append_inj' hmore rfl
      rw [(List.cons.inj hlast).1] at hafter
      exact absurd (hafter ▸ by simp) hno

/-- What a tree covers of another's path, it covers of all that is under it. -/
theorem Under.trans {y path : Text} (h : Under x (y ++ tree)) (hnot : x ≠ y ++ tree)
    (h' : Under y path) : Under x path := by
  rcases h with heq | hprefix
  · exact absurd heq.symm hnot
  · have hslash := under_slash (append_tree y ▸ hprefix) (by decide)
    rcases h' with rfl | hbelow
    · rcases prefix_concat_iff.mp hslash with heq | hbelow
      · exact .inl (append_cancel_right heq).symm
      · exact .inr hbelow
    · exact .inr (hslash.trans hbelow)

/-- What a document ref covers is told by its path, whatever the other's path is. -/
theorem documentRefCovers_path {entry ref : DocumentRef} : documentRefCovers entry ref = true ↔
    entry.projectId = ref.projectId ∧ (ref.access = some .write → entry.access = some .write) ∧
      ((∃ x, entry.path = x ++ tree ∧ Under x ref.path) ∨
        ¬tree <:+ entry.path ∧ entry.path = ref.path) := by
  by_cases htree : tree <:+ entry.path
  · obtain ⟨x, hx⟩ := htree
    rw [documentRefCovers_tree hx.symm]
    refine and_congr_right' (and_congr_right' ⟨fun hunder => .inl ⟨x, hx.symm, hunder⟩, ?_⟩)
    rintro (⟨x', hx', hunder⟩ | ⟨hnot, -⟩)
    · rwa [append_cancel_right (hx.trans hx')]
    · exact absurd ⟨x, hx⟩ hnot
  · rw [documentRefCovers_file htree]
    refine and_congr_right' (and_congr_right' ⟨fun heq => .inr ⟨htree, heq⟩, ?_⟩)
    rintro (⟨x, hx, -⟩ | ⟨-, heq⟩)
    · exact absurd ⟨x, hx.symm⟩ htree
    · exact heq

theorem documentRefCovers_trans {entry ref other : DocumentRef}
    (h : documentRefCovers entry ref = true)
    (hnot : ¬(tree <:+ ref.path ∧ entry.path = ref.path ++ tree))
    (h' : documentRefCovers ref other = true) : documentRefCovers entry other = true := by
  obtain ⟨hproject, haccess, hpath⟩ := documentRefCovers_path.mp h
  obtain ⟨hproject', haccess', hpath'⟩ := documentRefCovers_path.mp h'
  refine documentRefCovers_path.mpr
    ⟨hproject.trans hproject', fun hwrite => haccess (haccess' hwrite), ?_⟩
  rcases hpath' with ⟨y, hy, hunder'⟩ | ⟨hfile, heq⟩
  · rcases hpath with ⟨x, hx, hunder⟩ | ⟨hfile, heq⟩
    · -- The covering tree is no deeper than the covered one, or it names it.
      refine .inl ⟨x, hx, Under.trans (hy ▸ hunder) (fun hnames => hnot ⟨⟨y, hy.symm⟩, ?_⟩) hunder'⟩
      rw [hx, hnames, hy]
    · exact absurd ⟨y, (heq.trans hy).symm⟩ hfile
  · rwa [← heq]

/-! ## Entries -/

inductive Kind
  | app
  | workflow
  | agent
  deriving DecidableEq

/-- What names an app, a workflow or an agent. -/
def ArtifactRef.named : ArtifactRef → Option (Kind × Text × Text)
  | .app ref => some (.app, ref.projectId, ref.name)
  | .workflow ref => some (.workflow, ref.projectId, ref.name)
  | .agent ref => some (.agent, ref.projectId, ref.name)
  | .document _ => none
  | .sessions _ => none

variable {entry ref : ArtifactRef} {kind : Kind} {projectId name : Text}

theorem entryCovers_named (h : ref.named = some (kind, projectId, name)) :
    entryCovers entry ref = true ↔ ∃ name', entry.named = some (kind, projectId, name') ∧
        (name' = name ∨ name' = everyArtifact) := by
  cases ref with
  | document ref => cases h
  | sessions projectId => cases h
  | _ =>
    cases h
    cases entry <;>
      simp [entryCovers, sameArtifact, coversEvery, ArtifactRef.named, ← and_or_left]

theorem entryCovers_agent {ref : AgentRef} : entryCovers entry (.agent ref) = true ↔
      ∃ agent, entry = .agent agent ∧ agent.projectId = ref.projectId ∧
        (agent.name = ref.name ∨ agent.name = everyArtifact) := by
  cases entry <;> simp [entryCovers, sameArtifact, coversEvery, ← and_or_left]

theorem entryCovers_document {ref : DocumentRef} : entryCovers entry (.document ref) = true ↔
      ∃ document, entry = .document document ∧ documentRefCovers document ref = true := by
  cases entry <;> simp [entryCovers]

theorem entryCovers_sessions :
    entryCovers entry (.sessions projectId) = true ↔ entry = .sessions projectId := by
  cases entry <;> simp [entryCovers, sameArtifact, coversEvery]

/-- An entry of a kind covers artifacts of the kind, in its project. -/
theorem named_of_covers (h : entryCovers entry ref = true)
    (hentry : entry.named = some (kind, projectId, name)) :
    ∃ name', ref.named = some (kind, projectId, name') := by
  cases href : ref.named with
  | some named =>
    obtain ⟨kind', projectId', name'⟩ := named
    obtain ⟨name'', hentry', -⟩ := (entryCovers_named href).mp h
    cases hentry.symm.trans hentry'
    exact ⟨name', rfl⟩
  | none =>
    cases ref with
    | sessions projectId' =>
      rw [entryCovers_sessions.mp h] at hentry
      cases hentry
    | document ref =>
      obtain ⟨document, rfl, -⟩ := entryCovers_document.mp h
      cases hentry
    | _ => cases href

/-- The entry covers the tree as the file that its path would name. -/
def NamesTree (entry ref : ArtifactRef) : Prop :=
  ∃ document tree', entry = .document document ∧ ref = .document tree' ∧
    tree <:+ tree'.path ∧ document.path = tree'.path ++ tree

variable {other : ArtifactRef} {n : Nat}

/-- **Covering is transitive, but through a tree that is covered as a file.** -/
theorem entryCovers_trans (h : entryCovers entry ref = true) (hnot : ¬NamesTree entry ref)
    (h' : entryCovers ref other = true) : entryCovers entry other = true := by
  cases hnamed : other.named with
  | some named =>
    obtain ⟨name', href, hname'⟩ := (entryCovers_named hnamed).mp h'
    obtain ⟨name'', hentry, hname⟩ := (entryCovers_named href).mp h
    refine (entryCovers_named hnamed).mpr ⟨name'', hentry, ?_⟩
    rcases hname with rfl | hname
    · exact hname'
    · exact .inr hname
  | none =>
    cases other with
    | sessions projectId =>
      obtain rfl := entryCovers_sessions.mp h'
      exact h
    | document other =>
      obtain ⟨document, rfl, hcovers'⟩ := entryCovers_document.mp h'
      obtain ⟨document', rfl, hcovers⟩ := entryCovers_document.mp h
      refine entryCovers_document.mpr ⟨document', rfl, ?_⟩
      exact documentRefCovers_trans hcovers
        (fun hnames => hnot ⟨document', document, rfl, rfl, hnames⟩) hcovers'
    | _ => cases hnamed

/-! ## The narrowed scope -/

theorem scopeCovers_iff :
    scopeCovers scope ref = true ↔ ∃ entry ∈ scope, entryCovers entry ref = true :=
  any_eq_true

theorem mem_intersectScope {x : ArtifactRef} : x ∈ intersectScope scope ⟨some held, permissions⟩ ↔
      x ∈ scope ∧ scopeCovers held x = true ∨
        ∃ ref ∈ scope, scopeCovers held ref ≠ true ∧ ref.name = some everyArtifact ∧
          ∃ entry ∈ held, x ∈ narrowEvery ref entry := by
  rw [intersectScope, mem_flatMap]
  constructor
  · rintro ⟨ref, href, hx⟩
    by_cases hheld : scopeCovers held ref = true
    · rw [if_pos hheld] at hx
      obtain rfl := mem_singleton.mp hx
      exact .inl ⟨href, hheld⟩
    · by_cases hname : ref.name = some everyArtifact
      · rw [if_neg hheld, if_neg (not_not.mpr hname)] at hx
        exact .inr ⟨ref, href, hheld, hname, mem_flatMap.mp hx⟩
      · rw [if_neg hheld, if_pos hname] at hx
        cases hx
  · rintro (⟨hx, hheld⟩ | ⟨ref, href, hheld, hname, hentry⟩)
    · refine ⟨x, hx, ?_⟩
      rw [if_pos hheld]
      exact mem_singleton_self x
    · refine ⟨ref, href, ?_⟩
      rw [if_neg hheld, if_neg (not_not.mpr hname)]
      exact mem_flatMap.mpr hentry

/-- An agent's own refs are kept, with the policies of the ref that keeps them. -/
theorem narrowEvery_agent {ref entry : AgentRef} (h : entry.projectId = ref.projectId) :
    narrowEvery (.agent ref) (.agent entry) =
      [.agent { entry with toolPolicies := ref.toolPolicies.or entry.toolPolicies }] := by
  rw [narrowEvery, if_neg (not_not.mpr h)]
  cases ref.toolPolicies <;> rfl

theorem agent_narrowEvery {x : AgentRef} (h : .agent x ∈ narrowEvery ref entry) :
    ∃ agent own, ref = .agent agent ∧ entry = .agent own ∧ own.projectId = agent.projectId ∧
        x = { own with toolPolicies := agent.toolPolicies.or own.toolPolicies } := by
  cases ref <;> cases entry <;> try cases h
  case agent.agent agent own =>
    by_cases hproject : own.projectId = agent.projectId
    · rw [narrowEvery_agent hproject, mem_singleton] at h
      exact ⟨agent, own, rfl, rfl, hproject, ArtifactRef.agent.inj h⟩
    · rw [narrowEvery, if_pos hproject] at h
      cases h
  all_goals
    rw [narrowEvery] at h
    split at h <;> simp at h

/-- What is kept of an entry is named as the entry is, and is of the ref's kind and project. -/
theorem named_narrowEvery {x : ArtifactRef} (h : x ∈ narrowEvery ref entry) :
    ∃ kind projectId name name', ref.named = some (kind, projectId, name) ∧
      entry.named = some (kind, projectId, name') ∧ x.named = entry.named := by
  cases ref <;> cases entry <;> try cases h
  all_goals
    rename_i ref entry
    by_cases hproject : entry.projectId = ref.projectId
    · refine ⟨_, _, _, _, rfl, by rw [ArtifactRef.named, hproject], ?_⟩
      first
        | rw [narrowEvery_agent hproject, mem_singleton] at h
        | rw [narrowEvery, if_neg (not_not.mpr hproject), mem_singleton] at h
      exact (congrArg ArtifactRef.named h).trans rfl
    · rw [narrowEvery, if_pos hproject] at h
      cases h

theorem name_of_named (h : ref.named = some (kind, projectId, name)) : ref.name = some name := by
  cases ref <;> cases h <;> rfl

/-- What is kept of an entry covers no more than the entry does, nor than the ref that keeps it. -/
theorem covers_kept {x : ArtifactRef} (h : x ∈ narrowEvery ref entry)
    (hname : ref.name = some everyArtifact) (hcovers : entryCovers x other = true) :
    entryCovers entry other = true ∧ entryCovers ref other = true := by
  obtain ⟨kind, projectId, name, name', href, hentry, hx⟩ := named_narrowEvery h
  obtain ⟨name'', hother⟩ := named_of_covers hcovers (hx.trans hentry)
  cases (name_of_named href).symm.trans hname
  refine ⟨?_, (entryCovers_named hother).mpr ⟨_, href, .inr rfl⟩⟩
  rw [entryCovers_named hother, ← hx]
  exact (entryCovers_named hother).mp hcovers

/-- Each covered ref is covered otherwise than by a path that names a tree as a file. -/
def TreesHeld (scope held : List ArtifactRef) : Prop :=
  ∀ ref ∈ scope, scopeCovers held ref = true →
    ∃ entry ∈ held, entryCovers entry ref = true ∧ ¬NamesTree entry ref

theorem covers_scope (h : scopeCovers (intersectScope scope ⟨some held, permissions⟩) ref = true) :
    scopeCovers scope ref = true := by
  obtain ⟨x, hx, hcovers⟩ := scopeCovers_iff.mp h
  rcases mem_intersectScope.mp hx with ⟨hx, -⟩ | ⟨other, hother, -, hname, entry, -, hkept⟩
  · exact scopeCovers_iff.mpr ⟨x, hx, hcovers⟩
  · exact scopeCovers_iff.mpr ⟨other, hother, (covers_kept hkept hname hcovers).2⟩

theorem covers_held (htrees : TreesHeld scope held)
    (h : scopeCovers (intersectScope scope ⟨some held, permissions⟩) ref = true) :
    scopeCovers held ref = true := by
  obtain ⟨x, hx, hcovers⟩ := scopeCovers_iff.mp h
  rcases mem_intersectScope.mp hx with ⟨hx, hheld⟩ | ⟨other, -, -, hname, entry, hentry, hkept⟩
  · obtain ⟨entry, hentry, hover, hnot⟩ := htrees x hx hheld
    exact scopeCovers_iff.mpr ⟨entry, hentry, entryCovers_trans hover hnot hcovers⟩
  · exact scopeCovers_iff.mpr ⟨entry, hentry, (covers_kept hkept hname hcovers).1⟩

theorem not_namesTree (h : ref.named = some (kind, projectId, name)) : ¬NamesTree entry ref := by
  rintro ⟨document, tree', -, rfl, -⟩
  cases h

/-- An app, a workflow or an agent of the narrowed scope is one that the identity holds. -/
theorem held_of_named (hnamed : ref.named = some (kind, projectId, name))
    (h : scopeCovers (intersectScope scope ⟨some held, permissions⟩) ref = true) :
    scopeCovers held ref = true := by
  obtain ⟨x, hx, hcovers⟩ := scopeCovers_iff.mp h
  rcases mem_intersectScope.mp hx with ⟨-, hheld⟩ | ⟨other, -, -, hname, entry, hentry, hkept⟩
  · obtain ⟨name', hx', -⟩ := (entryCovers_named hnamed).mp hcovers
    obtain ⟨entry, hentry, hover⟩ := scopeCovers_iff.mp hheld
    exact scopeCovers_iff.mpr ⟨entry, hentry, entryCovers_trans hover (not_namesTree hx') hcovers⟩
  · exact scopeCovers_iff.mpr ⟨entry, hentry, (covers_kept hkept hname hcovers).1⟩

/-- A name of a tree that no held path is long enough to hold. -/
def fresh (held : List ArtifactRef) : Text :=
  List.replicate (held.foldr (fun
    | .document ref, n => ref.path.length + n
    | _, n => n) 0) 'a'

theorem length_fresh {document : DocumentRef} (h : .document document ∈ held) :
    document.path.length ≤ (fresh held).length := by
  rw [fresh, length_replicate]
  induction held with
  | nil => cases h
  | cons first rest ih =>
    rcases mem_cons.mp h with rfl | h
    · exact Nat.le_add_right _ _
    · refine (ih h).trans ?_
      cases first with
      | document ref => exact Nat.le_add_left _ _
      | _ => exact le_rfl

/-- **Where what is kept is held, no tree is held by its name alone.** -/
theorem trees_of_covers
    (h : ∀ ref, scopeCovers (intersectScope scope ⟨some held, permissions⟩) ref = true →
      scopeCovers held ref = true) : TreesHeld scope held := by
  intro ref href hheld
  obtain ⟨entry, hentry, hcovers⟩ := scopeCovers_iff.mp hheld
  by_cases hnames : NamesTree entry ref
  · obtain ⟨-, document, -, rfl, ⟨y, hy⟩, -⟩ := hnames
    -- A name below the tree that only a tree can cover.
    let below : DocumentRef :=
      { document with path := (y ++ ['/']) ++ fresh held }
    have hkept : scopeCovers (intersectScope scope ⟨some held, permissions⟩)
        (.document below) = true := by
      refine scopeCovers_iff.mpr ⟨_, mem_intersectScope.mpr (.inl ⟨href, hheld⟩), ?_⟩
      exact entryCovers_document.mpr ⟨document, rfl, (documentRefCovers_tree hy.symm).mpr
        ⟨rfl, fun haccess => haccess, .inr (prefix_append _ _)⟩⟩
    obtain ⟨entry', hentry', hbelow⟩ := scopeCovers_iff.mp (h _ hkept)
    obtain ⟨holder, rfl, hbelow⟩ := entryCovers_document.mp hbelow
    obtain ⟨hproject, haccess, hpath⟩ := documentRefCovers_path.mp hbelow
    have hlong := length_fresh hentry'
    have hlength : below.path.length = y.length + 1 + (fresh held).length := by
      simp only [below, length_append, length_singleton]
    rcases hpath with ⟨x, hx, hsame | hprefix⟩ | ⟨-, hsame⟩
    · have := congrArg List.length hx
      rw [← hsame, length_append] at this
      omega
    · have hslash : (x ++ ['/']) <+: y ++ ['/'] := 
        under_slash hprefix fun hslash => absurd (eq_of_mem_replicate hslash) (by decide)
      refine ⟨_, hentry', entryCovers_document.mpr ⟨holder, rfl, (documentRefCovers_tree hx).mpr
        ⟨hproject, haccess, .inr ?_⟩⟩, ?_⟩
      · rw [← hy, append_tree]
        exact hslash.trans (prefix_append _ _)
      · rintro ⟨document', tree', hdocument, htree', -, hlonger⟩
        cases hdocument
        cases htree'
        have hle := hslash.length_le
        have := congrArg List.length (hx.symm.trans hlonger)
        rw [← hy] at this
        simp only [length_append, length_cons, tree] at this hle
        omega
    · have := congrArg List.length hsame
      omega
  · exact ⟨entry, hentry, hcovers, hnames⟩

/-! ## Tool policies -/

theorem rank_stricter {a b : ToolPermission} :
    (a.stricter b).rank ≤ n ↔ a.rank ≤ n ∨ b.rank ≤ n := by
  rw [ToolPermission.stricter]
  split <;> omega

theorem rank_foldl {permissions : List ToolPermission} {start : ToolPermission} :
    (permissions.foldl ToolPermission.stricter start).rank ≤ n ↔
      start.rank ≤ n ∨ ∃ permission ∈ permissions, permission.rank ≤ n := by
  induction permissions generalizing start with
  | nil => simp
  | cons first rest ih => rw [foldl_cons, ih, rank_stricter]; simp [or_assoc]

variable {slug : Text}

theorem mem_coveringAgentRefs {ref : AgentRef} : ref ∈ coveringAgentRefs scope projectId slug ↔
      .agent ref ∈ scope ∧ ref.projectId = projectId ∧
        (ref.name = slug ∨ ref.name = everyArtifact) := by
  rw [coveringAgentRefs, mem_append, mem_filter, mem_filter, ← and_or_left,
    mem_filterMap, decide_eq_true_eq, decide_eq_true_eq, ← and_assoc]
  refine and_congr_left' ⟨?_, fun ⟨hentry, hproject⟩ => ⟨_, hentry, if_pos hproject⟩⟩
  rintro ⟨entry, hentry, hsome⟩
  cases entry with
  | agent agent =>
    by_cases hproject : agent.projectId = projectId
    · simp only [hproject, if_true, Option.some.injEq] at hsome
      subst hsome
      exact ⟨hentry, hproject⟩
    · simp [hproject] at hsome
  | _ => cases hsome

variable {serverKey : Text → Text}

/-- What some covering ref's layer says is what the scope lets an agent do, or something laxer. -/
theorem scopeToolPermission_le {server tool : Text} {readOnly : Bool} :
    (scopeToolPermission serverKey scope projectId slug server tool readOnly).rank ≤ n ↔
      2 ≤ n ∨ ∃ ref ∈ coveringAgentRefs scope projectId slug, ∃ layer ∈ ref.layers serverKey server,
        (resolveToolPermission layer tool readOnly).rank ≤ n := by
  rw [scopeToolPermission, rank_foldl]
  refine or_congr Iff.rfl ⟨?_, ?_⟩
  · rintro ⟨permission, hpermission, hle⟩
    obtain ⟨layer, hlayer, rfl⟩ := mem_map.mp hpermission
    obtain ⟨ref, href, hlayer⟩ := mem_flatMap.mp hlayer
    exact ⟨ref, href, layer, hlayer, hle⟩
  · rintro ⟨ref, href, layer, hlayer, hle⟩
    exact ⟨_, mem_map_of_mem (mem_flatMap.mpr ⟨ref, href, hlayer⟩), hle⟩

/-- A scope lets an agent do no more with any tool than another scope does. -/
def NoLaxer (serverKey : Text → Text) (scope scope' : List ArtifactRef) (projectId slug : Text) :
    Prop :=
  ∀ server tool readOnly,
    (scopeToolPermission serverKey scope projectId slug server tool readOnly).rank ≤
      (scopeToolPermission serverKey scope' projectId slug server tool readOnly).rank

theorem NoLaxer.trans {first second third : List ArtifactRef}
    (h : NoLaxer serverKey first second projectId slug)
    (h' : NoLaxer serverKey second third projectId slug) :
    NoLaxer serverKey first third projectId slug :=
  fun server tool readOnly => (h server tool readOnly).trans (h' server tool readOnly)

/-- A scope with every layer of another lets an agent do no more. -/
theorem noLaxer_of_layers {scope' : List ArtifactRef}
    (h : ∀ ref ∈ coveringAgentRefs scope' projectId slug, ref.toolPolicies ≠ none →
      ∃ other ∈ coveringAgentRefs scope projectId slug, other.toolPolicies = ref.toolPolicies) :
    NoLaxer serverKey scope scope' projectId slug := by
  intro server tool readOnly
  rw [scopeToolPermission_le]
  rcases scopeToolPermission_le.mp (le_refl (scopeToolPermission serverKey scope' projectId slug
    server tool readOnly).rank) with hall | ⟨ref, href, layer, hlayer, hle⟩
  · exact .inl hall
  · have hsome : ref.toolPolicies ≠ none := fun hnone => by
      rw [AgentRef.layers, hnone] at hlayer
      cases hlayer
    obtain ⟨other, hother, hsame⟩ := h ref href hsome
    refine .inr ⟨other, hother, layer, ?_, hle⟩
    rwa [AgentRef.layers, hsame]

theorem covers_agent {policies : Option (List (Text × AgentRefToolPolicy))} :
    scopeCovers scope (.agent ⟨projectId, slug, policies⟩) = true ↔
      ∃ ref, ref ∈ coveringAgentRefs scope projectId slug := by
  rw [scopeCovers_iff]
  constructor
  · rintro ⟨entry, hentry, hcovers⟩
    obtain ⟨agent, rfl, hproject, hname⟩ := entryCovers_agent.mp hcovers
    exact ⟨agent, mem_coveringAgentRefs.mpr ⟨hentry, hproject, hname⟩⟩
  · rintro ⟨agent, hagent⟩
    obtain ⟨hentry, hproject, hname⟩ := mem_coveringAgentRefs.mp hagent
    exact ⟨_, hentry, entryCovers_agent.mpr ⟨agent, rfl, hproject, hname⟩⟩

/-- An agent's ref that the identity does not hold is `*`, and keeps the agent's own ref. -/
theorem kept_agent {ref entry : AgentRef} (href : ref ∈ coveringAgentRefs scope projectId slug)
    (hentry : entry ∈ coveringAgentRefs held projectId slug)
    (hheld : scopeCovers held (.agent ref) ≠ true) : ref.name = everyArtifact ∧
      { entry with toolPolicies := ref.toolPolicies.or entry.toolPolicies } ∈
        coveringAgentRefs (intersectScope scope ⟨some held, permissions⟩) projectId slug := by
  obtain ⟨hmem, hproject, hname⟩ := mem_coveringAgentRefs.mp href
  obtain ⟨hmem', hproject', hname'⟩ := mem_coveringAgentRefs.mp hentry
  have hevery : ref.name = everyArtifact := by
    refine hname.resolve_left fun hslug => hheld (covers_agent.mpr ⟨entry, ?_⟩)
    rw [hproject, hslug]
    exact hentry
  refine ⟨hevery, mem_coveringAgentRefs.mpr ⟨?_, hproject', hname'⟩⟩
  refine mem_intersectScope.mpr (.inr
    ⟨.agent ref, hmem, hheld, congrArg some hevery, .agent entry, hmem', ?_⟩)
  rw [narrowEvery_agent (hproject'.trans hproject.symm)]
  exact mem_singleton_self _

/-- **An agent that the identity holds keeps every layer of the scope.** -/
theorem noLaxer_scope (h : scopeCovers held (.agent ⟨projectId, slug, none⟩) = true) :
    NoLaxer serverKey (intersectScope scope ⟨some held, permissions⟩) scope projectId slug := by
  obtain ⟨entry, hentry⟩ := covers_agent.mp h
  refine noLaxer_of_layers fun ref href hsome => ?_
  by_cases hheld : scopeCovers held (.agent ref) = true
  · obtain ⟨hmem, hrest⟩ := mem_coveringAgentRefs.mp href
    exact ⟨ref, mem_coveringAgentRefs.mpr ⟨mem_intersectScope.mpr (.inl ⟨hmem, hheld⟩), hrest⟩, rfl⟩
  · refine ⟨_, (kept_agent href hentry hheld).2, ?_⟩
    obtain ⟨policies, hpolicies⟩ := Option.ne_none_iff_exists'.mp hsome
    rw [hpolicies]
    rfl

/-- The scope holds every agent of the project, unnarrowed, and the identity holds them by name. -/
def NamedBeneath (scope held : List ArtifactRef) (projectId : Text) : Prop :=
  (∃ ref, .agent ref ∈ scope ∧ ref.projectId = projectId ∧ ref.name = everyArtifact ∧
    ref.toolPolicies = none) ∧
      ∀ entry, .agent entry ∈ held → entry.projectId = projectId → entry.name ≠ everyArtifact

/-- What the scope lets an agent do is no more than what the identity does, if both hold it, or the
narrowed scope has the identity's own refs. -/
def ToolsHeld (serverKey : Text → Text) (scope held : List ArtifactRef) : Prop :=
  ∀ projectId slug, scopeCovers scope (.agent ⟨projectId, slug, none⟩) = true →
    scopeCovers held (.agent ⟨projectId, slug, none⟩) = true →
      NamedBeneath scope held projectId ∨ NoLaxer serverKey scope held projectId slug

/-- **The layers of the identity are kept where its own refs are, or are the scope's as well.** -/
theorem noLaxer_held (h : scopeCovers held (.agent ⟨projectId, slug, none⟩) = true) :
    NoLaxer serverKey (intersectScope scope ⟨some held, permissions⟩) held projectId slug ↔
      NamedBeneath scope held projectId ∨ NoLaxer serverKey scope held projectId slug := by
  constructor
  · intro hlaxer
    by_cases hbeneath : NamedBeneath scope held projectId
    · exact .inl hbeneath
    · refine .inr (NoLaxer.trans (noLaxer_of_layers fun x hx hsome => ?_) hlaxer)
      obtain ⟨hmem, hproject, hname⟩ := mem_coveringAgentRefs.mp hx
      rcases mem_intersectScope.mp hmem with
        ⟨hscope, -⟩ | ⟨other, hother, hheld, hevery, entry, hentry, hkept⟩
      · exact ⟨x, mem_coveringAgentRefs.mpr ⟨hscope, hproject, hname⟩, rfl⟩
      · -- The ref has policies, or it keeps the identity's own refs unnarrowed.
        obtain ⟨ref, agent, rfl, rfl, hsame, rfl⟩ := agent_narrowEvery hkept
        have hstar : ref.name = everyArtifact := Option.some.inj hevery
        have href : ref.projectId = projectId := hsame.symm.trans hproject
        refine ⟨ref, mem_coveringAgentRefs.mpr ⟨hother, href, .inr hstar⟩, ?_⟩
        cases hpolicies : ref.toolPolicies with
        | some policies => rfl
        | none =>
          refine absurd ⟨⟨ref, hother, href, hstar, hpolicies⟩, ?_⟩ hbeneath
          intro own hown hproject' hall
          refine hheld (scopeCovers_iff.mpr ⟨_, hown, ?_⟩)
          exact entryCovers_agent.mpr ⟨own, rfl, hproject'.trans href.symm, .inr hall⟩
  · rintro (⟨⟨ref, hmem, hproject, hname, hnone⟩, hnames⟩ | hlaxer)
    · refine noLaxer_of_layers fun entry hentry _ => ?_
      have hheld : scopeCovers held (.agent ref) ≠ true := fun hcovers => by
        obtain ⟨other, hother⟩ := covers_agent.mp hcovers
        obtain ⟨hmem', hproject', hname'⟩ := mem_coveringAgentRefs.mp hother
        refine hnames other hmem' (hproject'.trans hproject) ?_
        exact hname'.elim (fun hsame => hsame.trans hname) id
      refine ⟨_, (kept_agent (mem_coveringAgentRefs.mpr ⟨hmem, hproject, .inr hname⟩) hentry
        hheld).2, ?_⟩
      rw [hnone]
      rfl
    · exact (noLaxer_scope h).trans hlaxer

/-- An agent of both sides is one of the narrowed scope. -/
theorem covers_agent_of_both (hscope : scopeCovers scope (.agent ⟨projectId, slug, none⟩) = true)
    (hheld : scopeCovers held (.agent ⟨projectId, slug, none⟩) = true) :
    scopeCovers (intersectScope scope ⟨some held, permissions⟩)
      (.agent ⟨projectId, slug, none⟩) = true := by
  obtain ⟨ref, href⟩ := covers_agent.mp hscope
  obtain ⟨entry, hentry⟩ := covers_agent.mp hheld
  by_cases hown : scopeCovers held (.agent ref) = true
  · obtain ⟨hmem, hrest⟩ := mem_coveringAgentRefs.mp href
    exact covers_agent.mpr ⟨ref, mem_coveringAgentRefs.mpr
      ⟨mem_intersectScope.mpr (.inl ⟨hmem, hown⟩), hrest⟩⟩
  · exact covers_agent.mpr ⟨_, (kept_agent href hentry hown).2⟩

/-! ## Both lists -/

/-- Narrowing keeps only what both sides hold, as strictly, and all permissions that both hold. -/
structure Narrows (serverKey : Text → Text) (identity : Identity) (scope : List ArtifactRef)
    (grants : List ProjectPermissionRef) : Prop where
  covered : ∀ ref, scopeCovers (intersectScope scope identity) ref = true →
    scopeCovers scope ref = true ∧ identityCovers identity ref = true
  tools : ∀ projectId slug,
    scopeCovers (intersectScope scope identity) (.agent ⟨projectId, slug, none⟩) = true →
      ∀ server tool readOnly,
        (scopeToolPermission serverKey (intersectScope scope identity) projectId slug server tool
          readOnly).rank ≤
            (scopeToolPermission serverKey scope projectId slug server tool readOnly).rank ∧
        (scopeToolPermission serverKey (intersectScope scope identity) projectId slug server tool
          readOnly).rank ≤
            (callerToolPermission serverKey identity projectId slug server tool readOnly).rank
  permissions : ∀ projectId (p : ProjectPermission),
    permissionsCover (intersectProjectPermissions grants identity) projectId p.text = true ↔
      permissionsCover grants projectId p.text = true ∧
        hasProjectPermission identity projectId p.text = true

/-- What an identity must hold for narrowing to it to be exact; the root identity narrows nothing. -/
def Exact (serverKey : Text → Text) (identity : Identity) (scope : List ArtifactRef)
    (grants : List ProjectPermissionRef) : Prop :=
  ∀ held, identity.scope = some held → TreesHeld scope held ∧ ToolsHeld serverKey scope held ∧
    ReadsMeet grants identity.projectPermissions

theorem rank_le_allow (permission : ToolPermission) :
    permission.rank ≤ ToolPermission.allow.rank := by
  cases permission <;> decide

/-- **Narrowing is exact only where no path names a tree, the identity's tool policies are kept,
and no reading comes of two actions.** -/
theorem narrows_iff {serverKey : Text → Text} {identity : Identity} {scope : List ArtifactRef}
    {grants : List ProjectPermissionRef} :
    Narrows serverKey identity scope grants ↔ Exact serverKey identity scope grants := by
  obtain ⟨scope', permissions⟩ := identity
  cases scope' with
  | none =>
      refine ⟨fun _ held hheld => absurd hheld.symm (Option.some_ne_none held), fun _ => ?_⟩
      refine ⟨fun ref href => ⟨href, rfl⟩, fun projectId slug _ server tool readOnly =>
        ⟨le_refl _, rank_le_allow _⟩, fun projectId p => ?_⟩
      exact (and_iff_left rfl).symm
  | some held =>
      constructor
      · rintro ⟨hcovered, htools, hpermissions⟩ _ ⟨⟩
        refine ⟨trees_of_covers fun ref href => (hcovered ref href).2, ?_,
          permissions_iff.mp hpermissions⟩
        intro projectId slug hscope hheld
        have hlaxer : NoLaxer serverKey (intersectScope scope ⟨some held, permissions⟩) held
            projectId slug := fun server tool readOnly =>
          (htools projectId slug (covers_agent_of_both hscope hheld) server tool readOnly).2
        exact (noLaxer_held hheld).mp hlaxer
      · intro hexact
        obtain ⟨htrees, htools, hreads⟩ := hexact held rfl
        refine ⟨fun ref href => ⟨covers_scope href, covers_held htrees href⟩, ?_,
          permissions_iff.mpr hreads⟩
        intro projectId slug hkept server tool readOnly
        have hheld := held_of_named rfl hkept
        have hlaxer : NoLaxer serverKey (intersectScope scope ⟨some held, permissions⟩) held
            projectId slug :=
          (noLaxer_held hheld).mpr (htools projectId slug (covers_scope hkept) hheld)
        exact ⟨noLaxer_scope hheld server tool readOnly, hlaxer server tool readOnly⟩

/-- An identity that may use no tool of a server, and one that may write notes. -/
def denied : Identity :=
  { scope := some [.agent ⟨['p'], ['a'], some [(['s'], ⟨some (.permission .deny), []⟩)]⟩] }

def writer : Identity :=
  { scope := some [], projectPermissions := [⟨['p'], ⟨permissionOf ['t'] write, by decide⟩⟩] }

/-- A scope with the agent gives the tools back, and publishing notes gives nothing to read. -/
theorem not_narrows : ¬Narrows id denied [.agent ⟨['p'], ['a'], none⟩] [] ∧
      ¬Narrows id writer [] [⟨['p'], ⟨permissionOf ['t'] publish, by decide⟩⟩] := by
  constructor
  · intro h
    exact absurd (h.tools ['p'] ['a'] (by decide) ['s'] ['x'] false).2 (by decide)
  · intro h
    exact absurd ((h.permissions ['p'] ⟨permissionOf ['t'] read, by decide⟩).mpr (by decide))
      (by decide)

end Catamorphic.Access
