import Catamorphic.Sandbox.PersonalFiles

/-!
# Personal files never leave with a sync

What a delivery put at a path is, between calls, in the block, in the manifest and on the list,
and nothing tracks it. During a delivery this holds of all that it has not written itself; when
it moved its records, of everything. So a snapshot leaves the placed files out, and a removal
finds them. What breaks it is what comes between a delivery's writes and its records.
-/

namespace Catamorphic.Sandbox

open Runs List Option

variable {rules : GitRules} {lines : List Line} {w w' : World} {tree : Tree} {path path' at_ : Path}
  {text : Text}

/-! ## Patterns -/

theorem unescape_escape (h : '\\' ∉ text) :
    unescape (escapeTrailing (escape text)) = some text := by
  induction text with
  | nil => rfl
  | cons c rest ih =>
    have hc : c ≠ '\\' := fun heq => h (heq ▸ mem_cons_self)
    have ih := ih fun hmem => h (mem_cons_of_mem _ hmem)
    unfold escape
    split
    · rename_i hspecial
      have hspace : c ≠ ' ' := by rcases hspecial with rfl | rfl | rfl <;> decide
      rw [escapeTrailing, if_neg (fun hfalse => absurd hfalse.1 (by decide)), escapeTrailing,
        if_neg (fun hfalse => hspace hfalse.1), unescape, ih, map_some]
    · rename_i hplain
      rw [escapeTrailing]
      split
      · rename_i hspace
        rw [unescape, ih, map_some, hspace.1]
      · rename_i hinner
        have hlast : ¬ (c = '*' ∨ c = '?' ∨ c = '[' ∨
            (c = ' ' ∧ escapeTrailing (escape rest) = [])) := by
          rintro (hstar | hmark | hbracket | ⟨hspace, hnil⟩)
          · exact hplain (.inl hstar)
          · exact hplain (.inr (.inl hmark))
          · exact hplain (.inr (.inr hbracket))
          · refine hinner ⟨hspace, ?_⟩
            cases hrest : escape rest with
            | nil => rfl
            | cons d more =>
              rw [hrest, escapeTrailing] at hnil
              split at hnil <;> cases hnil
        rw [unescape, if_neg hlast, ih, map_some]
        · exact fun heq => absurd heq hc
        · exact fun _ _ heq => absurd heq hc

/-- **A pattern stands for its path.** -/
theorem literalPath_gitignoreLiteral (hslash : '\\' ∉ text)
    (hlast : text.getLast? ≠ some '/') : literalPath (gitignoreLiteral text) = some text := by
  unfold gitignoreLiteral literalPath
  simp only [unescape_escape hslash, if_neg hlast]

theorem segmentsOf_slash (h : text.getLast? = some '/') :
    ∃ segment segments, Git.segmentsOf text = segment :: segments ∧ [] ∈ segments := by
  induction text with
  | nil => cases h
  | cons c rest ih =>
    unfold Git.segmentsOf
    cases rest with
    | nil =>
      rw [List.getLast?_singleton, some.injEq] at h
      rw [if_pos h]
      exact ⟨[], [[]], rfl, mem_cons_self⟩
    | cons d more =>
      obtain ⟨segment, segments, hsegments, hmem⟩ := ih (by rwa [List.getLast?_cons_cons] at h)
      rw [hsegments]
      split
      · exact ⟨[], segment :: segments, rfl, mem_cons_of_mem _ hmem⟩
      · exact ⟨c :: segment, segments, rfl, hmem⟩

/-- **The line of a personal file matches its path.** -/
theorem match_line (hrules : rules.Documented) (file : PersonalFile) :
    rules.matchLine (gitignoreLiteral (textOf file.path)) file.path = some true := by
  have hvalid := file.valid
  unfold personalFilePathProblem at hvalid
  dsimp only at hvalid
  split at hvalid
  · cases hvalid
  · split at hvalid
    · cases hvalid
    · split at hvalid
      · cases hvalid
      · split at hvalid
        · cases hvalid
        · rename_i hslash
          split at hvalid
          · cases hvalid
          · split at hvalid
            · cases hvalid
            · rename_i hempty
              refine hrules.literal _ _ (literalPath_gitignoreLiteral hslash fun hlast => hempty ?_)
              obtain ⟨segment, segments, hsegments, hmem⟩ := segmentsOf_slash hlast
              rw [hsegments, List.any_eq_true]
              exact ⟨[], mem_cons_of_mem _ hmem, by decide⟩

/-! ## The folder -/

theorem node_remove : (tree.remove path).node path' = if path' = path then none else tree.node
    path' := by
  unfold Tree.remove Tree.node
  induction tree with
  | nil => simp
  | cons entry tree ih =>
    obtain ⟨key, value⟩ := entry
    by_cases hkey : key = path
    · rw [filter_cons_of_neg (by simpa using hkey), ih, lookup_cons]
      by_cases hpath : path' = path
      · rw [if_pos hpath, if_pos hpath]
      · rw [if_neg hpath, if_neg hpath, beq_false_of_ne (fun heq => hpath (heq.trans hkey))]
    · rw [filter_cons_of_pos (by simpa using hkey), lookup_cons, ih, lookup_cons]
      cases heq : (path' == key) with
      | true =>
        have hne : path' ≠ path := fun hp => hkey ((beq_iff_eq.mp heq).symm.trans hp)
        simp only [if_neg hne]
      | false => rfl

variable {node : Node} {line : Line}

theorem node_put : (tree.put path node).node path' =
    if path' = path then some node else tree.node path' := by
  show List.lookup path' ((path, node) :: tree.remove path) = _
  rw [lookup_cons]
  by_cases heq : path' = path
  · rw [heq, if_pos rfl, beq_self_eq_true]
  · rw [if_neg heq, beq_false_of_ne heq]
    exact node_remove.trans (if_neg heq)

/-- Folders on the way, or nothing there yet. -/
def Tree.Clear (tree : Tree) (at_ path : Path) : Prop :=
  ∀ mid, mid ≠ [] → mid <+: path → mid ≠ path →
    tree.node (at_ ++ mid) = none ∨ tree.node (at_ ++ mid) = some .dir

/-- A file, or nothing. -/
def Tree.Plain (tree : Tree) (path : Path) : Prop :=
  tree.node path = none ∨ ∃ file, tree.node path = some (.file file)

theorem Tree.Clear.tail {part : Text} {rest : Path} (h : tree.Clear at_ (part :: rest)) :
    tree.Clear (at_ ++ [part]) rest := by
  intro mid hne hinit hproper
  have hmid := h (part :: mid) (fun hnil => nomatch hnil) (prefix_cons_inj part |>.mpr hinit)
    fun heq => hproper (List.cons.inj heq).2
  rwa [append_assoc, singleton_append]

/-- **`work_unsafe` says no** only of what has folders on its way and is a file, or nothing. -/
theorem clear_of_unsafeFrom (h : tree.unsafeFrom at_ path = false) :
    tree.Clear at_ path ∧ tree.Plain (at_ ++ path) := by
  induction path generalizing at_ with
  | nil =>
    refine ⟨fun mid hne hinit => absurd (prefix_nil.mp hinit) hne, ?_⟩
    rw [append_nil]
    unfold Tree.unsafeFrom at h
    split at h
    · rename_i hnone
      exact .inl hnone
    · rename_i file hfile
      exact .inr ⟨file, hfile⟩
    · cases h
  | cons part rest ih =>
    have hstep : tree.unsafeFrom (at_ ++ [part]) rest = false ∧
        (rest ≠ [] → tree.node (at_ ++ [part]) = none ∨ tree.node (at_ ++ [part]) = some
          .dir) := by
      unfold Tree.unsafeFrom at h
      split at h
      · cases h
      · rename_i hdir
        exact ⟨h, fun _ => .inr hdir⟩
      · split at h
        · cases h
        · rename_i hrest
          exact ⟨h, fun hne => absurd hne hrest⟩
      · rename_i hnone
        exact ⟨h, fun _ => .inl hnone⟩
    obtain ⟨hclear, hplain⟩ := ih hstep.1
    rw [append_assoc, singleton_append] at hplain
    refine ⟨fun mid hne hinit hproper => ?_, hplain⟩
    cases mid with
    | nil => exact absurd rfl hne
    | cons part' mid =>
      obtain ⟨rfl, hmid⟩ := cons_prefix_cons.mp hinit
      by_cases hnil : mid = []
      · subst hnil
        exact hstep.2 fun hrest => hproper (by rw [hrest])
      · have hinner := hclear mid hnil hmid fun heq => hproper (by rw [heq])
        rwa [append_assoc, singleton_append] at hinner

/-- And says so of all of it. -/
theorem unsafeFrom_of_clear (hclear : tree.Clear at_ path) (hplain : tree.Plain (at_ ++ path)) :
    tree.unsafeFrom at_ path = false := by
  induction path generalizing at_ with
  | nil =>
    rw [append_nil] at hplain
    unfold Tree.unsafeFrom
    rcases hplain with hnone | ⟨file, hfile⟩
    · rw [hnone]
    · rw [hfile]
  | cons part rest ih =>
    have hrest : tree.unsafeFrom (at_ ++ [part]) rest = false :=
      ih hclear.tail (by rwa [append_assoc, singleton_append])
    unfold Tree.unsafeFrom
    by_cases hnil : rest = []
    · subst hnil
      rcases hplain with hnone | ⟨file, hfile⟩
      · simp only [hnone, hrest]
      · simp only [hfile, hrest, ne_eq, not_true_eq_false, if_false]
    · have hfirst := hclear [part] (fun h => nomatch h)
        (cons_prefix_cons.mpr ⟨rfl, nil_prefix⟩)
        (fun heq => hnil (List.cons.inj heq).2.symm)
      rcases hfirst with hnone | hdir
      · simp only [hnone, hrest]
      · simp only [hdir, hrest]

theorem closed_remove (h : tree.Closed) (hpath : tree.node path ≠ some .dir) :
    (tree.remove path).Closed := by
  intro q node hnode mid hne hinit hproper
  rw [node_remove] at hnode
  split at hnode
  · cases hnode
  · have hdir := h q node hnode mid hne hinit hproper
    rw [node_remove, if_neg, hdir]
    rintro rfl
    exact hpath hdir

theorem closed_put {file : File} (h : tree.Closed) (hpath : tree.node path ≠ some .dir)
    (hparents : ∀ mid, mid ≠ [] → mid <+: path → mid ≠ path → tree.node mid = some .dir) :
    (tree.put path (.file file)).Closed := by
  intro q node hnode mid hne hinit hproper
  rw [node_put] at hnode
  split at hnode
  · rename_i heq
    rw [heq] at hinit hproper
    rw [node_put, if_neg hproper]
    exact hparents mid hne hinit hproper
  · have hdir := h q node hnode mid hne hinit hproper
    rw [node_put, if_neg, hdir]
    rintro rfl
    exact hpath hdir

/-- `mkdir` of a folder on the way. -/
def Tree.ensure (tree : Tree) (path : Path) : Tree :=
  if (tree.node path).isSome then tree else tree.put path .dir

theorem node_ensure : (tree.ensure path).node path' =
    if path' = path ∧ tree.node path = none then some .dir else tree.node path' := by
  unfold Tree.ensure
  cases hnode : tree.node path with
  | none =>
    simp only [isSome_none, Bool.false_eq_true, if_false, node_put, and_true]
  | some node =>
    simp only [isSome_some, if_true, reduceCtorEq, and_false, if_false]

theorem mkdirFrom_cons {part next : Text} {rest : Path} :
    tree.mkdirFrom at_ (part :: next :: rest) =
      (tree.ensure (at_ ++ [part])).mkdirFrom (at_ ++ [part]) (next :: rest) := rfl

theorem node_mkdirFrom_keep (h : tree.node path' = some node) :
    (tree.mkdirFrom at_ path).node path' = some node := by
  induction path generalizing tree at_ with
  | nil => exact h
  | cons part rest ih =>
    cases rest with
    | nil => exact h
    | cons next rest =>
      rw [mkdirFrom_cons]
      refine ih ?_
      rw [node_ensure, if_neg, h]
      rintro ⟨rfl, hnone⟩
      rw [hnone] at h
      cases h

theorem node_mkdirFrom_dir (h : tree.Clear at_ path) {mid : Path} (hne : mid ≠ [])
    (hinit : mid <+: path) (hproper : mid ≠ path) :
    (tree.mkdirFrom at_ path).node (at_ ++ mid) = some .dir := by
  induction path generalizing tree at_ mid with
  | nil => exact absurd (prefix_nil.mp hinit) hne
  | cons part rest ih =>
    cases mid with
    | nil => exact absurd rfl hne
    | cons part' mid =>
      obtain ⟨rfl, hmid⟩ := cons_prefix_cons.mp hinit
      cases rest with
      | nil => exact absurd (by rw [prefix_nil.mp hmid]) hproper
      | cons next rest =>
        rw [mkdirFrom_cons]
        have hfirst : (tree.ensure (at_ ++ [part'])).node (at_ ++ [part']) = some .dir := by
          rw [node_ensure]
          rcases h [part'] (fun hnil => nomatch hnil)
              (cons_prefix_cons.mpr ⟨rfl, nil_prefix⟩)
              (fun heq => nomatch (List.cons.inj heq).2) with hnone | hdir
          · rw [if_pos ⟨rfl, hnone⟩]
          · rw [if_neg fun hand => ?_, hdir]
            rw [hand.2] at hdir
            cases hdir
        by_cases hnil : mid = []
        · subst hnil
          exact node_mkdirFrom_keep hfirst
        · have hclear : (tree.ensure (at_ ++ [part'])).Clear (at_ ++ [part'])
            (next :: rest) := by
            intro mid' hne' hinit' hproper'
            rw [node_ensure, if_neg]
            · exact h.tail mid' hne' hinit' hproper'
            · rintro ⟨heq, -⟩
              exact hne' (append_right_eq_self.mp heq)
          have hinner := ih hclear hnil hmid fun heq => hproper (by rw [heq])
          rwa [append_assoc, singleton_append] at hinner

theorem node_mkdirFrom_new (h : (tree.mkdirFrom at_ path).node path' = some node) :
    tree.node path' = some node ∨
      node = .dir ∧ ∃ mid, mid ≠ [] ∧ mid <+: path ∧ mid ≠ path ∧ path' = at_ ++ mid := by
  induction path generalizing tree at_ with
  | nil => exact .inl h
  | cons part rest ih =>
    cases rest with
    | nil => exact .inl h
    | cons next rest =>
      rw [mkdirFrom_cons] at h
      rcases ih h with hold | ⟨hdir, mid, hne, hinit, hproper, heq⟩
      · rw [node_ensure] at hold
        split at hold
        · rename_i hnew
          exact .inr ⟨(some.inj hold).symm, [part], (fun hnil => nomatch hnil),
            cons_prefix_cons.mpr ⟨rfl, nil_prefix⟩,
            (fun heq => nomatch (List.cons.inj heq).2), hnew.1⟩
        · exact .inl hold
      · refine .inr ⟨hdir, part :: mid, (fun hnil => nomatch hnil),
          cons_prefix_cons.mpr ⟨rfl, hinit⟩, (fun heq' => hproper (List.cons.inj heq').2), ?_⟩
        rw [heq, append_assoc, singleton_append]

theorem closed_mkdir (h : tree.Closed) (hclear : tree.Clear [] path) :
    (tree.mkdirFrom [] path).Closed := by
  intro q node hnode mid hne hinit hproper
  rcases node_mkdirFrom_new hnode with hold | ⟨-, mid', -, hinit', hproper', rfl⟩
  · exact node_mkdirFrom_keep (h q node hold mid hne hinit hproper)
  · exact node_mkdirFrom_dir hclear hne (hinit.trans hinit') fun heq =>
      hproper (hinit.eq_of_length_le (heq ▸ hinit'.length_le))

/-! ## The block -/

theorem pattern_not_marker (text : Text) :
    gitignoreLiteral text ≠ EXCLUDE_BEGIN ∧ gitignoreLiteral text ≠ EXCLUDE_END :=
  ⟨fun heq => absurd (List.cons.inj heq).1 (by decide),
    fun heq => absurd (List.cons.inj heq).1 (by decide)⟩

theorem begin_ne_end : EXCLUDE_END ≠ EXCLUDE_BEGIN := by decide

theorem outsideBlock_unmarked {skip : Bool} (h : line ∈ outsideBlock skip lines) :
    line ≠ EXCLUDE_BEGIN ∧ line ≠ EXCLUDE_END := by
  induction lines generalizing skip with
  | nil => cases h
  | cons first rest ih =>
    unfold outsideBlock at h
    split at h
    · exact ih h
    · split at h
      · exact ih h
      · rename_i hbegin hend
        split at h
        · exact ih h
        · rcases mem_cons.mp h with rfl | hrest
          · exact ⟨hbegin, hend⟩
          · exact ih hrest

theorem outsideBlock_append {before : List Line}
    (h : ∀ line ∈ before, line ≠ EXCLUDE_BEGIN ∧ line ≠ EXCLUDE_END) :
    outsideBlock false (before ++ lines) = before ++ outsideBlock false lines := by
  induction before with
  | nil => rfl
  | cons first rest ih =>
    obtain ⟨hbegin, hend⟩ := h first mem_cons_self
    rw [cons_append, outsideBlock, if_neg hbegin, if_neg hend, if_neg Bool.false_ne_true,
      ih (List.forall_mem_cons.mp h).2, cons_append]

theorem outsideBlock_patterns (paths : List Path) :
    outsideBlock true (paths.map (fun path => gitignoreLiteral (textOf path)) ++ [EXCLUDE_END]) =
      [] := by
  induction paths with
  | nil =>
    show outsideBlock true [EXCLUDE_END] = []
    rw [outsideBlock, if_neg begin_ne_end, if_pos rfl, outsideBlock]
  | cons path paths ih =>
    obtain ⟨hbegin, hend⟩ := pattern_not_marker (textOf path)
    rw [map_cons, cons_append, outsideBlock, if_neg hbegin, if_neg hend, if_pos rfl, ih]

theorem outsideBlock_block (paths : List Path) :
    outsideBlock false (personalExcludeBlock paths) = [] := by
  unfold personalExcludeBlock
  rw [cons_append, outsideBlock, if_pos rfl, outsideBlock_patterns]

/-- **Writing the block leaves the other lines.** -/
theorem outsideBlock_written (paths : List Path) :
    outsideBlock false (outsideBlock false lines ++ personalExcludeBlock paths) =
      outsideBlock false lines := by
  rw [outsideBlock_append fun line => outsideBlock_unmarked, outsideBlock_block, append_nil]

theorem outsideBlock_twice :
    outsideBlock false (outsideBlock false lines) = outsideBlock false lines := by
  have happend := @outsideBlock_append [] (outsideBlock false lines)
    fun line => outsideBlock_unmarked
  rwa [append_nil, outsideBlock, append_nil] at happend

theorem block_line {paths : List Path} (h : line ∈ personalExcludeBlock paths) :
    line.head? = some '#' ∨ line.head? = some '/' := by
  unfold personalExcludeBlock at h
  rw [cons_append, mem_cons, mem_append, List.mem_map, mem_singleton] at h
  rcases h with rfl | ⟨path, -, rfl⟩ | rfl
  · exact .inl (by decide)
  · exact .inr rfl
  · exact .inl (by decide)

/-- **What is in the block is ignored**, unless an ignore file says otherwise. -/
theorem ignored_of_excluded (hrules : rules.Documented) (file : PersonalFile)
    (h : w.Excluded file.path) (hfiles : rules.ignoreFiles w.tree file.path ≠ some false) :
    w.ignored rules file.path = true := by
  obtain ⟨before, paths, hlines, hmem⟩ := h
  unfold World.ignored
  split
  · rename_i verdict hverdict
    cases verdict with
    | true => rfl
    | false => exact absurd hverdict hfiles
  · have hall : ∀ verdict ∈ (personalExcludeBlock paths).filterMap fun line =>
        rules.matchLine line file.path, verdict = true := by
      intro verdict hverdict
      obtain ⟨line, hline, hmatch⟩ := mem_filterMap.mp hverdict
      cases verdict with
      | true => rfl
      | false =>
        have hnegated := hrules.negated line file.path hmatch
        rcases block_line hline with hhead | hhead
        · rw [hhead] at hnegated
          exact absurd (some.inj hnegated) (by decide)
        · rw [hhead] at hnegated
          exact absurd (some.inj hnegated) (by decide)
    have hsome : true ∈ (personalExcludeBlock paths).filterMap fun line =>
        rules.matchLine line file.path := by
      refine mem_filterMap.mpr ⟨gitignoreLiteral (textOf file.path), ?_, match_line hrules file⟩
      exact mem_cons_of_mem _ (mem_append_left _ (mem_map.mpr ⟨file.path, hmem, rfl⟩))
    have hne : ((personalExcludeBlock paths).filterMap fun line =>
        rules.matchLine line file.path) ≠ [] := ne_nil_of_mem hsome
    rw [hlines, filterMap_append, List.getLast?_append_of_ne_nil _ hne,
      List.getLast?_eq_some_getLast hne]
    rw [hall _ (getLast_mem hne)]
    rfl

/-! ## The invariant -/

/-- The paths that a delivery accepted. -/
def Delivery.paths (d : Delivery) : List Path := d.files.map (·.path)

/-- Folders all the way. -/
def Tree.Parents (tree : Tree) (path : Path) : Prop :=
  ∀ mid, mid ≠ [] → mid <+: path → mid ≠ path → tree.node mid = some .dir

/-- What holds where a delivery stands. -/
def StageInv (w : World) (d : Delivery) : DeliverStage → Prop
  | .read _ | .upload => d.written = [] ∧ (∀ path, w.Placed path → path ∈ d.previous.map (·.1)) ∧
      ∀ path ∈ d.marked, ¬ w.Placed path
  | .stale rest => d.written = [] ∧ ∀ path, w.Placed path → path ∈ d.paths ∨ path ∈ rest
  | .rm path' rest => d.written = [] ∧ w.tree.workUnsafe path' = false ∧
      ∀ path, w.Placed path → path ∈ d.paths ∨ path = path' ∨ path ∈ rest
  | .place rest => (∀ path, w.Placed path → path ∈ d.paths) ∧ ∀ file ∈ rest, file ∈ d.files
  | .mkdir file rest => (∀ path, w.Placed path → path ∈ d.paths) ∧
      (∀ file' ∈ file :: rest, file' ∈ d.files) ∧ w.tree.workUnsafe file.path = false
  | .clear file rest => (∀ path, w.Placed path → path ∈ d.paths) ∧
      (∀ file' ∈ file :: rest, file' ∈ d.files) ∧ w.tree.Plain file.path ∧ w.tree.Parents file.path
  | .write file rest => (∀ path, w.Placed path → path ∈ d.paths) ∧
      (∀ file' ∈ file :: rest, file' ∈ d.files) ∧ w.tree.node file.path = none ∧
        w.tree.Parents file.path
  | .touch | .filter => ∀ path, w.Placed path → path ∈ d.paths
  | .append => (∀ path, w.Placed path → path ∈ d.paths) ∧
      w.excludeWork = outsideBlock false w.excludeLines
  | .moveExclude => (∀ path, w.Placed path → path ∈ d.paths) ∧
      w.excludeWork = outsideBlock false w.excludeLines ++ personalExcludeBlock d.paths
  | .moveManifest => (∀ path, w.Placed path → path ∈ d.paths) ∧ ∀ path ∈ d.paths, w.Excluded path
  | .moveFiles => (∀ path, w.Placed path → path ∈ d.paths) ∧ (∀ path ∈ d.paths, w.Excluded path) ∧
      ∃ personal, w.personal = some personal ∧ personal.manifest = some d.incoming.manifest
  | .removeIncoming => (∀ path, w.Placed path → path ∈ d.paths) ∧ ∀ path ∈ d.paths, w.Kept path

/-- What holds where a removal stands. -/
def RemoveInv (w : World) : RemoveStage → Prop
  | .listed rest => ∀ path, w.Placed path → path ∈ rest
  | .rm path' rest => w.tree.workUnsafe path' = false ∧
      ∀ path, w.Placed path → path = path' ∨ path ∈ rest
  | .filter | .removePersonal => ∀ path, ¬ w.Placed path
  | .moveExclude => (∀ path, ¬ w.Placed path) ∧ w.excludeWork = outsideBlock false w.excludeLines

def CallInv (w : World) : Call → Prop
  | .deliver d stage => (∀ path ∈ d.written, path ∈ d.paths) ∧ StageInv w d stage
  | .remove stage => RemoveInv w stage

structure Inv (lines : List Line) (w : World) : Prop where
  closed : w.tree.Closed
  named : ∀ path, w.Placed path → ∃ file : PersonalFile, file.path = path
  kept : ∀ path, w.Placed path → w.Kept path ∨ path ∈ w.written
  untracked : ∀ path, w.Placed path → w.workTracked path = false
  unindexed : ∀ path, w.Placed path → ∀ index, w.syncIndex = some index → path ∉ index
  pending : ∀ call, w.call = some call → ∀ path, call.Pending path → w.workTracked path = false
  call : ∀ call, w.call = some call → CallInv w call
  sound : w.Sound lines

theorem safe_of_placed (h : Inv lines w) (hplaced : w.Placed path) :
    w.tree.workUnsafe path = false := by
  obtain ⟨file, hnode, -⟩ := hplaced
  refine unsafeFrom_of_clear (fun mid hne hinit hproper => .inr ?_) (.inr ⟨file, hnode⟩)
  exact h.closed path _ hnode mid hne hinit hproper

/-- A script skips no path where a file was placed. -/
theorem free_of_placed (h : Inv lines w) (hplaced : w.Placed path) :
    ¬ (w.workTracked path = true ∨ w.tree.workUnsafe path = true) := by
  simp [h.untracked _ hplaced, safe_of_placed h hplaced]

variable {stage : DeliverStage}

theorem written_deliver {d : Delivery} (h : w.call = some (.deliver d stage)) :
    w.written = d.written := by
  simp only [World.written, h]

variable {stage' : DeliverStage} {call : Call} {log : List Note}

/-- A delivery goes on, and nothing else changes. -/
theorem Inv.goto (h : Inv lines w) {d d' : Delivery} (hc : w.call = some (.deliver d stage))
    (hwritten : d'.written = d.written) (hfiles : ∀ path ∈ d.paths, path ∈ d'.paths)
    (hpending : ∀ path, (Call.deliver d' stage').Pending path → w.workTracked path = false)
    (hstage : StageInv w d' stage') : Inv lines (w.setCall (.deliver d' stage')) := by
  refine { h with
    kept := fun path hplaced => ?_
    pending := fun call hcall path hpend => ?_
    call := fun call hcall => ?_
    sound := { h.sound with } }
  · refine (h.kept path hplaced).imp_right fun hmem => ?_
    show path ∈ d'.written
    rw [hwritten]
    simpa only [World.written, hc] using hmem
  · cases hcall
    exact hpending path hpend
  · cases hcall
    refine ⟨fun path hmem => ?_, ?_⟩
    · rw [hwritten] at hmem
      exact hfiles path ((h.call _ hc).1 path hmem)
    · cases stage' <;> exact hstage

/-- Nothing but a harmless touch is noted. -/
theorem sound_touch (h : w.Sound lines) (htracked : w.workTracked path = false)
    (hsafe : w.tree.workUnsafe path = false) : (w.touch path).Sound lines where
  secret tree' hmem := h.secret tree' ((mem_cons.mp hmem).resolve_left fun heq => nomatch heq)
  withdrawn left hmem :=
    h.withdrawn left ((mem_cons.mp hmem).resolve_left fun heq => nomatch heq)
  touched path' tracked leads hmem := by
    rcases mem_cons.mp hmem with heq | hold
    · obtain ⟨-, rfl, rfl⟩ := Note.touched.inj heq
      exact ⟨htracked, hsafe⟩
    · exact h.touched path' tracked leads hold
  outside := h.outside

/-- The folder changes, and no file is placed in it. -/
theorem Inv.shrink (h : Inv lines w) {tree : Tree}
    (hclosed : tree.Closed) (hplaced : ∀ path, World.Placed { w with tree } path → w.Placed path)
    (hwritten : ∀ path ∈ w.written, path ∈ ({ w with call := some call } : World).written)
    (hpending : ∀ path, call.Pending path → w.workTracked path = false)
    (hcall : CallInv { w with tree, call := some call, log } call)
    (hsound : World.Sound lines { w with log }) :
    Inv lines { w with tree, call := some call, log } where
  closed := hclosed
  named path hp := h.named path (hplaced path hp)
  kept path hp := (h.kept path (hplaced path hp)).imp_right (hwritten path)
  untracked path hp := h.untracked path (hplaced path hp)
  unindexed path hp := h.unindexed path (hplaced path hp)
  pending call' hcall' path hpend := by
    cases hcall'
    exact hpending path hpend
  call call' hcall' := by
    cases hcall'
    exact hcall
  sound := { hsound with }

theorem placed_remove (h : World.Placed { w with tree := w.tree.remove path } path') :
    path' ≠ path ∧ w.Placed path' := by
  obtain ⟨file, hnode, hplaced⟩ := h
  rw [node_remove] at hnode
  split at hnode
  · cases hnode
  · exact ⟨‹_›, file, hnode, hplaced⟩

theorem placed_mkdir (h : World.Placed { w with tree := w.tree.mkdirFrom [] path } path') :
    w.Placed path' := by
  obtain ⟨file, hnode, hplaced⟩ := h
  rcases node_mkdirFrom_new hnode with hold | ⟨hdir, -⟩
  · exact ⟨file, hold, hplaced⟩
  · cases hdir

theorem placed_put {file : File}
    (h : World.Placed { w with tree := w.tree.put path (.file file) } path') :
    path' = path ∨ w.Placed path' := by
  obtain ⟨file', hnode, hplaced⟩ := h
  rw [node_put] at hnode
  split at hnode
  · exact .inl ‹_›
  · exact .inr ⟨file', hnode, hplaced⟩

theorem not_dir_of_plain (h : tree.Plain path) : tree.node path ≠ some .dir := by
  rcases h with hnone | ⟨file, hfile⟩
  · rw [hnone]
    exact fun heq => nomatch heq
  · rw [hfile]
    exact fun heq => nomatch heq

theorem plain_of_safe (h : tree.workUnsafe path = false) : tree.Plain path :=
  (clear_of_unsafeFrom h).2

theorem clear_of_safe (h : tree.workUnsafe path = false) : tree.Clear [] path :=
  (clear_of_unsafeFrom h).1

theorem safe_of_parents (hplain : tree.Plain path) (hparents : tree.Parents path) :
    tree.workUnsafe path = false :=
  unsafeFrom_of_clear (fun mid hne hinit hproper => .inr (hparents mid hne hinit hproper)) hplain

variable {file : PersonalFile} {exclude : Option (List Line)} {excludeWork : List Line}
variable {personal : Option Personal}

/-! ## Deliveries -/

section Deliver

variable {d : Delivery}

theorem mem_marked {marked : List Path} (h : ¬ w.Placed path)
    (hmarked : ∀ p ∈ marked, ¬ w.Placed p) : ∀ p ∈ path :: marked, ¬ w.Placed p := by
  intro p hp
  rcases mem_cons.mp hp with rfl | hold
  · exact h
  · exact hmarked p hold

section

variable (h : Inv lines w) {rest : List PersonalFile}
include h

theorem Inv.read {todo : List PersonalFile}
    (hc : w.call = some (.deliver d (.read todo))) : Inv lines (w.deliver d (.read todo)) := by
  obtain ⟨hfiles, hempty, hprevious, hmarked⟩ := h.call _ hc
  have hpending := h.pending _ hc
  cases todo with
  | nil => exact h.goto hc rfl (fun _ hp => hp) hpending ⟨hempty, hprevious, hmarked⟩
  | cons file todo =>
    simp only [World.deliver]
    split
    · rename_i hmark
      refine h.goto hc ?_ ?_ ?_ ?_
      · rfl
      · exact fun _ hp => hp
      · exact hpending
      · exact ⟨hempty, hprevious, mem_marked (fun hp => free_of_placed h hp hmark) hmarked⟩
    · rename_i hfree
      refine h.goto hc ?_ ?_ ?_ ?_
      · rfl
      · intro path hp
        unfold Delivery.paths
        rw [map_append]
        exact mem_append_left _ hp
      · intro path hpend
        have hmem : path ∈ (d.files ++ [file]).map (·.path) := hpend
        rw [map_append, mem_append, map_singleton, mem_singleton] at hmem
        rcases hmem with hold | rfl
        · exact hpending path hold
        · simpa using fun htracked => hfree (.inl htracked)
      · exact ⟨hempty, hprevious, hmarked⟩

omit h in
/-- **What is placed is accepted again, or stale.** -/
theorem placed_stale (hprevious : ∀ path, w.Placed path → path ∈ d.previous.map (·.1))
    (hmarked : ∀ path ∈ d.marked, ¬ w.Placed path) (hp : w.Placed path) :
    path ∈ d.paths ∨ path ∈ d.stale := by
  by_cases hmem : path ∈ d.paths
  · exact .inl hmem
  · refine .inr (mem_filter.mpr ⟨hprevious path hp, ?_⟩)
    simp only [decide_eq_true_eq]
    exact ⟨hmem, fun hmark => hmarked path hmark hp⟩

/-- The uploaded files are beside the records. -/
theorem Inv.upload (hc : w.call = some (.deliver d .upload)) : Inv lines (w.deliver d .upload) := by
  obtain ⟨hfiles, hempty, hprevious, hmarked⟩ := h.call _ hc
  have hpending := h.pending _ hc
  refine { h with
    kept := fun path hp => ?_
    pending := fun call hcall path hpend => ?_
    call := fun call hcall => ?_
    sound := { h.sound with } }
  · rcases h.kept path hp with ⟨hexcluded, personal, hpersonal, hmanifest, hlisted⟩ | hmem
    · refine .inl ⟨hexcluded, { personal with incoming := some d.incoming }, ?_, hmanifest, hlisted⟩
      simp only [World.deliver, hpersonal, getD_some]
    · rw [written_deliver hc, hempty] at hmem
      cases hmem
  · cases hcall
    exact hpending path hpend
  · cases hcall
    exact ⟨hfiles, hempty, fun path => placed_stale hprevious hmarked⟩

omit h in
theorem changed_files (h : file ∈ d.changed) : file ∈ d.files :=
  mem_of_mem_filter h

theorem Inv.stale {rest : List Path}
    (hc : w.call = some (.deliver d (.stale rest))) : Inv lines (w.deliver d (.stale rest)) := by
  obtain ⟨-, hempty, hplaced⟩ := h.call _ hc
  have hpending := h.pending _ hc
  cases rest with
  | nil =>
    refine h.goto hc rfl (fun _ hp => hp) (fun path hpend => hpending path ?_)
      ⟨fun path hp => ?_, ?_⟩
    · obtain ⟨file, hfile, rfl⟩ := mem_map.mp hpend
      exact mem_map_of_mem (changed_files hfile)
    · exact (hplaced path hp).resolve_right not_mem_nil
    · exact fun file => changed_files
  | cons path rest =>
    simp only [World.deliver]
    split
    · rename_i hmark
      refine h.goto hc rfl (fun _ hp => hp) hpending ⟨hempty, fun q hq => ?_⟩
      refine (hplaced q hq).imp_right fun hmem => ?_
      rcases mem_cons.mp hmem with rfl | hrest
      · exact absurd hmark (free_of_placed h hq)
      · exact hrest
    · rename_i hfree
      refine h.goto hc rfl (fun _ hp => hp) (fun q hq => ?_) ⟨hempty, ?_, fun q hq => ?_⟩
      · rcases hq with hfiles | rfl
        · exact hpending q hfiles
        · simpa using fun htracked => hfree (.inl htracked)
      · simpa using fun hunsafe => hfree (.inr hunsafe)
      · exact (hplaced q hq).imp_right mem_cons.mp

theorem Inv.rm {rest : List Path} (hc : w.call = some (.deliver d (.rm path rest))) : Inv lines
      (w.deliver d (.rm path rest)) := by
  obtain ⟨hfiles, hempty, hsafe, hplaced⟩ := h.call _ hc
  have hpending := h.pending _ hc
  refine h.shrink (closed_remove h.closed (not_dir_of_plain (plain_of_safe hsafe)))
    (fun q hq => (placed_remove hq).2) (fun q hq => ?_) (fun q hq => hpending q (.inl hq)) ?_
    (sound_touch h.sound (hpending path (.inr rfl)) hsafe)
  · rwa [written_deliver hc] at hq
  · refine ⟨hfiles, hempty, fun q hq => ?_⟩
    obtain ⟨hne, hold⟩ := placed_remove hq
    rcases hplaced q hold with hmem | heq | hrest
    · exact .inl hmem
    · exact absurd heq hne
    · exact .inr hrest

theorem Inv.place
    (hc : w.call = some (.deliver d (.place rest))) : Inv lines (w.deliver d (.place rest)) := by
  obtain ⟨-, hplaced, hsub⟩ := h.call _ hc
  have hpending := h.pending _ hc
  cases rest with
  | nil => exact h.goto hc rfl (fun _ hp => hp) (fun _ hpend => hpend.elim) hplaced
  | cons file rest =>
    simp only [World.deliver]
    split
    · exact h.goto hc rfl (fun _ hp => hp)
        (List.forall_mem_cons.mp hpending).2
        ⟨hplaced, fun file' hfile' => hsub file' (mem_cons_of_mem _ hfile')⟩
    · rename_i hsafe
      exact h.goto hc rfl (fun _ hp => hp) hpending ⟨hplaced, hsub, by simpa using hsafe⟩

theorem Inv.mkdir (hc : w.call = some (.deliver d (.mkdir file rest))) :
    Inv lines (w.deliver d (.mkdir file rest)) := by
  obtain ⟨hfiles, hplaced, hsub, hsafe⟩ := h.call _ hc
  have hpending := h.pending _ hc
  refine h.shrink (closed_mkdir h.closed (clear_of_safe hsafe)) (fun q => placed_mkdir)
    (fun q hq => ?_) hpending ⟨hfiles, fun q hq => hplaced q (placed_mkdir hq), hsub, ?_, ?_⟩
    h.sound
  · rwa [written_deliver hc] at hq
  · cases hnode : (w.tree.mkdirFrom [] file.path).node file.path with
    | none => exact .inl hnode
    | some node =>
      rcases node_mkdirFrom_new hnode with hold | ⟨-, mid, -, -, hproper, heq⟩
      · rcases plain_of_safe hsafe with hnone | ⟨file', hfile'⟩
        · rw [hnone] at hold
          cases hold
        · exact .inr ⟨file', node_mkdirFrom_keep hfile'⟩
      · exact absurd heq.symm hproper
  · exact fun mid => node_mkdirFrom_dir (clear_of_safe hsafe)

theorem Inv.clear (hc : w.call = some (.deliver d (.clear file rest))) :
    Inv lines (w.deliver d (.clear file rest)) := by
  obtain ⟨hfiles, hplaced, hsub, hplain, hparents⟩ := h.call _ hc
  have hpending := h.pending _ hc
  refine h.shrink (closed_remove h.closed (not_dir_of_plain hplain))
    (fun q hq => (placed_remove hq).2) (fun q hq => ?_) hpending
    ⟨hfiles, fun q hq => hplaced q (placed_remove hq).2, hsub, ?_, fun mid hne hinit hproper => ?_⟩
    (sound_touch h.sound (hpending _ mem_cons_self) (safe_of_parents hplain hparents))
  · rwa [written_deliver hc] at hq
  · exact node_remove.trans (if_pos rfl)
  · exact node_remove.trans ((if_neg hproper).trans (hparents mid hne hinit hproper))

/-- **A file is placed**, where nothing tracks it and no snapshot knows it. -/
theorem Inv.write (hc : w.call = some (.deliver d (.write file rest)))
    (hindex : ∀ index, w.syncIndex = some index → file.path ∉ index) :
    Inv lines (w.deliver d (.write file rest)) := by
  obtain ⟨hfiles, hplaced, hsub, hnone, hparents⟩ := h.call _ hc
  have hpending := h.pending _ hc
  have hself : file.path ∈ d.paths := mem_map_of_mem (hsub file mem_cons_self)
  have htouch := sound_touch h.sound (hpending _ mem_cons_self)
    (safe_of_parents (.inl hnone) hparents)
  refine {
    closed := closed_put h.closed (by rw [hnone]; exact fun heq => nomatch heq) hparents
    named := fun q hq => ?_
    kept := fun q hq => ?_
    untracked := fun q hq => ?_
    unindexed := fun q hq => ?_
    pending := fun call hcall q hpend => ?_
    call := fun call hcall => ?_
    sound := { htouch with } }
  · rcases placed_put hq with rfl | hold
    · exact ⟨file, rfl⟩
    · exact h.named q hold
  · rcases placed_put hq with rfl | hold
    · exact .inr mem_cons_self
    · refine (h.kept q hold).imp_right fun hmem => ?_
      rw [written_deliver hc] at hmem
      exact mem_cons_of_mem _ hmem
  · rcases placed_put hq with rfl | hold
    · exact hpending _ mem_cons_self
    · exact h.untracked q hold
  · rcases placed_put hq with rfl | hold
    · exact hindex
    · exact h.unindexed q hold
  · cases hcall
    exact hpending q (mem_cons_of_mem _ hpend)
  · cases hcall
    refine ⟨fun q hq => ?_, fun q hq => ?_, fun file' hfile' => hsub file'
      (mem_cons_of_mem _ hfile')⟩
    · rcases mem_cons.mp hq with rfl | hold
      · exact hself
      · exact hfiles q hold
    · rcases placed_put hq with rfl | hold
      · exact hself
      · exact hplaced q hold

/-- The records change, and no file. -/
theorem Inv.record (hc : w.call = some (.deliver d stage))
    (hkept : ∀ path, w.Placed path → w.Kept path → World.Kept { w with exclude, personal } path)
    (hpending : ∀ path, ¬ (Call.deliver d stage').Pending path)
    (hstage : StageInv { w with exclude, excludeWork, personal } d stage')
    (houtside : outsideBlock false (exclude.getD []) = outsideBlock false lines) :
    Inv lines { w.setCall (.deliver d stage') with exclude, excludeWork, personal } := by
  refine { h with
    kept := fun path hp => ?_
    pending := fun call hcall path hpend => ?_
    call := fun call hcall => ?_
    sound := { h.sound with outside := houtside } }
  · rcases h.kept path hp with hold | hmem
    · exact .inl (hkept path hp hold)
    · rw [written_deliver hc] at hmem
      exact .inr hmem
  · cases hcall
    exact (hpending path hpend).elim
  · cases hcall
    refine ⟨(h.call _ hc).1, ?_⟩
    cases stage' <;> exact hstage

/-- **The records of a delivery keep what is placed.** -/
theorem Inv.records (hc : w.call = some (.deliver d stage))
    (hstage : stage = .touch ∨ stage = .filter ∨ stage = .append ∨ stage = .moveExclude ∨
      stage = .moveManifest ∨ stage = .moveFiles) : Inv lines (w.deliver d stage) := by
  have hinv := (h.call _ hc).2
  have houtside := h.sound.outside
  rcases hstage with rfl | rfl | rfl | rfl | rfl | rfl
  · exact h.record hc (fun _ _ hkept => hkept) (fun _ hpend => hpend) hinv houtside
  · exact h.record hc (fun _ _ hkept => hkept) (fun _ hpend => hpend) ⟨hinv, rfl⟩ houtside
  · refine h.record hc (fun _ _ hkept => hkept) (fun _ hpend => hpend) ⟨hinv.1, ?_⟩ houtside
    show w.excludeWork ++ personalExcludeBlock d.paths = _
    rw [hinv.2]
    rfl
  · have hexcluded : ∀ path ∈ d.paths, World.Excluded { w with exclude := some w.excludeWork }
      path :=
      fun path hmem => ⟨outsideBlock false w.excludeLines, d.paths, hinv.2, hmem⟩
    refine h.record hc (fun path hp hkept => ⟨hexcluded path (hinv.1 path hp), hkept.2⟩)
      (fun _ hpend => hpend) ⟨hinv.1, hexcluded⟩ ?_
    rw [getD_some, hinv.2, outsideBlock_written]
    exact houtside
  · have hmanifest : d.incoming.manifest.map (·.1) = d.paths := by
      simp only [Delivery.incoming, List.map_map]
      rfl
    refine h.record hc (fun path hp hkept => ?_) (fun _ hpend => hpend)
      ⟨hinv.1, hinv.2, _, rfl, rfl⟩ houtside
    obtain ⟨hexcluded, personal, hpersonal, -, hlisted⟩ := hkept
    refine ⟨hexcluded, { personal with manifest := some d.incoming.manifest }, ?_,
      ⟨_, rfl, ?_⟩, hlisted⟩
    · simp only [hpersonal, getD_some]
    · rw [hmanifest]
      exact hinv.1 path hp
  · obtain ⟨hplaced, hexcluded, personal, hpersonal, hmanifest⟩ := hinv
    have hpaths : d.incoming.manifest.map (·.1) = d.paths := by
      simp only [Delivery.incoming, List.map_map]
      rfl
    have hkept : ∀ path ∈ d.paths, World.Kept { w with
        personal := some { w.personal.getD {} with files := some d.incoming.files } } path := by
      intro path hmem
      refine ⟨hexcluded path hmem, { personal with files := some d.incoming.files }, ?_,
        ⟨_, hmanifest, hpaths ▸ hmem⟩, _, rfl, hmem⟩
      simp only [hpersonal, getD_some]
    exact h.record hc (fun path hp _ => hkept path (hplaced path hp)) (fun _ hpend => hpend)
      ⟨hplaced, hkept⟩ houtside

/-- A delivery that is over kept all that is placed. -/
theorem Inv.over (hkept : ∀ path, w.Placed path → w.Kept path)
    (hpersonal : ∀ path, w.Kept path → World.Kept { w with personal } path) :
    Inv lines { w.stop with personal } :=
  { h with
    kept := fun path hp => .inl (hpersonal path (hkept path hp))
    pending := fun _ hcall => nomatch hcall
    call := fun _ hcall => nomatch hcall
    sound := { h.sound with } }

theorem Inv.removeIncoming (hc : w.call = some (.deliver d .removeIncoming)) :
    Inv lines (w.deliver d .removeIncoming) := by
  obtain ⟨-, hplaced, hkept⟩ := h.call _ hc
  refine h.over (fun path hp => hkept path (hplaced path hp)) fun path hk => ?_
  obtain ⟨hexcluded, personal, hpersonal, hmanifest, hlisted⟩ := hk
  refine ⟨hexcluded, { personal with incoming := none }, ?_, hmanifest, hlisted⟩
  simp only [hpersonal, getD_some]

theorem Inv.deliver (hc : w.call = some (.deliver d stage)) (hok : Careful rules w .proceed) :
    Inv lines (w.deliver d stage) := by
  cases stage with
  | read todo => exact h.read hc
  | upload => exact h.upload hc
  | stale rest => exact h.stale hc
  | rm path rest => exact h.rm hc
  | place rest => exact h.place hc
  | mkdir file rest => exact h.mkdir hc
  | clear file rest => exact h.clear hc
  | write file rest => exact h.write hc (hok d file rest hc)
  | touch => exact h.records hc (.inl rfl)
  | filter => exact h.records hc (.inr (.inl rfl))
  | append => exact h.records hc (.inr (.inr (.inl rfl)))
  | moveExclude => exact h.records hc (.inr (.inr (.inr (.inl rfl))))
  | moveManifest => exact h.records hc (.inr (.inr (.inr (.inr (.inl rfl)))))
  | moveFiles => exact h.records hc (.inr (.inr (.inr (.inr (.inr rfl)))))
  | removeIncoming => exact h.removeIncoming hc

end

end Deliver

/-! ## Removals -/

/-- Nothing is placed: only what is noted, and the other lines, matter. -/
theorem Inv.bare (h : Inv lines w) (hnone : ∀ path, ¬ w.Placed path) {call : Option Call}
    (hpending : ∀ c, call = some c → ∀ path, ¬ c.Pending path)
    (hcall : ∀ c, call = some c → CallInv { w with call, exclude, excludeWork, personal, log } c)
    (hsound : World.Sound lines { w with exclude, log }) :
    Inv lines { w with call, exclude, excludeWork, personal, log } where
  closed := h.closed
  named path hp := absurd hp (hnone path)
  kept path hp := absurd hp (hnone path)
  untracked path hp := absurd hp (hnone path)
  unindexed path hp := absurd hp (hnone path)
  pending c hc path hpend := absurd hpend (hpending c hc path)
  call := hcall
  sound := { hsound with }

theorem left_of_bare (hnone : ∀ path, ¬ w.Placed path) : w.left = [] := by
  refine filter_eq_nil_iff.mpr fun path _ hleft => ?_
  split at hleft
  · rename_i file hnode
    refine hnone path ⟨file, hnode, ?_⟩
    cases hplaced : file.placed with
    | true => rfl
    | false =>
      rw [hplaced] at hleft
      cases hleft
  · cases hleft

theorem sound_withdrawn (h : w.Sound lines) (hnone : ∀ path, ¬ w.Placed path) :
    (w.note (.withdrawn w.left)).Sound lines where
  secret tree' hmem := h.secret tree' ((mem_cons.mp hmem).resolve_left fun heq => nomatch heq)
  withdrawn left hmem := by
    rcases mem_cons.mp hmem with heq | hold
    · rw [Note.withdrawn.inj heq]
      exact left_of_bare hnone
    · exact h.withdrawn left hold
  touched path' tracked leads hmem :=
    h.touched path' tracked leads ((mem_cons.mp hmem).resolve_left fun heq => nomatch heq)
  outside := h.outside

/-- A removal that has nothing to remove, or removed it, succeeds. -/
theorem Inv.withdrawn (h : Inv lines w) (hnone : ∀ path, ¬ w.Placed path) :
    Inv lines (World.withdrawn { w with personal }) :=
  h.bare hnone (fun _ hc => nomatch hc) (fun _ hc => nomatch hc)
    { sound_withdrawn h.sound hnone with }

/-- A removal goes on, and nothing else changes. -/
theorem Inv.gotoRemove (h : Inv lines w) {stage stage' : RemoveStage}
    (hc : w.call = some (.remove stage))
    (hpending : ∀ path, (Call.remove stage').Pending path → w.workTracked path = false)
    (hstage : RemoveInv w stage') : Inv lines (w.setCall (.remove stage')) := by
  refine { h with
    kept := fun path hp => ?_
    pending := fun call hcall path hpend => ?_
    call := fun call hcall => ?_
    sound := { h.sound with } }
  · refine (h.kept path hp).imp_right fun hmem => ?_
    rwa [World.written, hc] at hmem
  · cases hcall
    exact hpending path hpend
  · cases hcall
    cases stage' <;> exact hstage

theorem ne_nil_of_placed (h : Inv lines w) (hp : w.Placed path) : path ≠ [] := by
  rintro rfl
  obtain ⟨file, hpath⟩ := h.named [] hp
  have hvalid := file.valid
  rw [hpath] at hvalid
  exact absurd hvalid (by decide)

theorem Inv.remove (h : Inv lines w) {stage : RemoveStage} (hc : w.call = some (.remove stage)) :
    Inv lines (w.remove stage) := by
  have hinv : RemoveInv w stage := h.call _ hc
  have hpending := h.pending _ hc
  cases stage with
  | listed rest =>
    cases rest with
    | nil => exact h.gotoRemove hc (fun _ hpend => hpend.elim) fun path hp => nomatch hinv path hp
    | cons path rest =>
      simp only [World.remove]
      split
      · rename_i hskip
        refine h.gotoRemove hc (fun _ hpend => hpend.elim) fun q hq => ?_
        rcases mem_cons.mp (hinv q hq) with rfl | hrest
        · exact absurd hskip (not_or.mpr ⟨ne_nil_of_placed h hq, free_of_placed h hq⟩)
        · exact hrest
      · rename_i hfree
        refine h.gotoRemove hc (fun q hq => ?_) ⟨?_, fun q hq => mem_cons.mp (hinv q hq)⟩
        · have heq : q = path := hq
          rw [heq]
          simpa using fun htracked => hfree (.inr (.inl htracked))
        · simpa using fun hunsafe => hfree (.inr (.inr hunsafe))
  | rm path rest =>
    obtain ⟨hsafe, hplaced⟩ := hinv
    refine h.shrink (closed_remove h.closed (not_dir_of_plain (plain_of_safe hsafe)))
      (fun q hq => (placed_remove hq).2) (fun q hq => ?_) (fun _ hpend => hpend.elim)
      (fun q hq => ?_) (sound_touch h.sound (hpending path rfl) hsafe)
    · rw [World.written, hc] at hq
      cases hq
    · obtain ⟨hne, hold⟩ := placed_remove hq
      exact (hplaced q hold).resolve_left hne
  | filter =>
    simp only [World.remove]
    split
    · rename_i lines' hexclude
      refine h.bare hinv (fun c hc' path hpend => ?_) (fun c hc' => ?_) { h.sound with }
      · cases hc'
        exact hpend
      · cases hc'
        refine ⟨hinv, ?_⟩
        simp only [World.excludeLines, World.setCall, hexclude, getD_some]
    · exact h.gotoRemove hc (fun _ hpend => hpend.elim) hinv
  | moveExclude =>
    refine h.bare hinv.1 (fun c hc' path hpend => ?_) (fun c hc' => ?_)
      { h.sound with outside := ?_ }
    · cases hc'
      exact hpend
    · cases hc'
      exact hinv.1
    · show outsideBlock false w.excludeWork = _
      rw [hinv.2, outsideBlock_twice]
      exact h.sound.outside
  | removePersonal => exact h.withdrawn hinv

/-! ## Between commands -/

theorem CallInv.frame (h : CallInv w call) (htree : w'.tree = w.tree)
    (hexclude : w'.exclude = w.exclude) (hwork : w'.excludeWork = w.excludeWork)
    (hpersonal : w'.personal = w.personal) : CallInv w' call := by
  cases w'
  subst htree hexclude hwork hpersonal
  cases call with
  | deliver d stage =>
    refine ⟨h.1, ?_⟩
    cases stage <;> exact h.2
  | remove stage => cases stage <;> exact h

/-- **A snapshot leaves the placed files out.** -/
theorem not_snapshot (hrules : rules.Documented) (h : Inv lines w)
    (hok : Careful rules w .snapshot) (hp : w.Placed path) {file : File} :
    (path, file) ∉ w.snapshotTree rules := by
  intro hmem
  obtain ⟨path', -, hsome⟩ := mem_filterMap.mp hmem
  split at hsome
  · split at hsome
    · rename_i hin
      obtain ⟨rfl, -⟩ := Prod.mk.inj (some.inj hsome)
      rcases hin with hindex | hignored
      · cases hsync : w.syncIndex with
        | some index =>
          rw [hsync] at hindex
          exact h.unindexed _ hp index hsync hindex
        | none =>
          rw [hsync] at hindex
          have htracked := h.untracked _ hp
          unfold World.workTracked at htracked
          rw [List.any_eq_false] at htracked
          refine htracked path' ?_ (List.isPrefixOf_iff_prefix.mpr (prefix_refl _))
          exact mem_append_left _ (mem_append_left _ hindex)
      · obtain ⟨personal, rfl⟩ := h.named _ hp
        have hexcluded : w.Excluded personal.path :=
          (h.kept _ hp).elim (fun hkept => hkept.1) (hok.1 _)
        rw [ignored_of_excluded hrules personal hexcluded (hok.2 _ hp)] at hignored
        cases hignored
    · cases hsome
  · cases hsome

theorem Inv.snapshot (hrules : rules.Documented) (h : Inv lines w)
    (hok : Careful rules w .snapshot) : Inv lines (w.snapshot rules) where
  closed := h.closed
  named := h.named
  kept := h.kept
  untracked := h.untracked
  unindexed path hp index hindex hmem := by
    cases hindex
    obtain ⟨⟨path', file⟩, hentry, rfl⟩ := mem_map.mp hmem
    exact not_snapshot hrules h hok hp hentry
  pending := h.pending
  call call hc := (h.call call hc).frame rfl rfl rfl rfl
  sound := {
    secret := fun tree hmem entry hentry => by
      rcases mem_cons.mp hmem with heq | hold
      · rw [Note.snapshot.inj heq] at hentry
        cases hplaced : entry.2.placed with
        | false => rfl
        | true =>
          obtain ⟨path', -, hsome⟩ := mem_filterMap.mp hentry
          split at hsome
          · rename_i file hnode
            split at hsome
            · cases hsome
              exact absurd hentry (not_snapshot hrules h hok ⟨file, hnode, hplaced⟩)
            · cases hsome
          · cases hsome
      · exact h.sound.secret tree hold entry hentry
    withdrawn := fun left hmem =>
      h.sound.withdrawn left ((mem_cons.mp hmem).resolve_left fun heq => nomatch heq)
    touched := fun path tracked leads hmem =>
      h.sound.touched path tracked leads ((mem_cons.mp hmem).resolve_left fun heq => nomatch heq)
    outside := h.sound.outside }

section

variable (h : Inv lines w)
include h

/-- What the repository tracks changes, and no placed or pending path comes to it. -/
theorem Inv.retrack {index head synced : List Path}
    (hok : w.TracksNoMore { w with index, head, synced }) :
    Inv lines { w with index, head, synced } where
  closed := h.closed
  named := h.named
  kept := h.kept
  untracked path hp := by
    cases htracked : World.workTracked { w with index, head, synced } path with
    | false => rfl
    | true => exact absurd hp (hok path htracked (h.untracked path hp)).1
  unindexed := h.unindexed
  pending call hc path hpend := by
    cases htracked : World.workTracked { w with index, head, synced } path with
    | false => rfl
    | true => exact absurd hpend ((hok path htracked (h.pending call hc path hpend)).2 call hc)
  call call hc := (h.call call hc).frame rfl rfl rfl rfl
  sound := { h.sound with }

theorem Inv.edit {tree : Tree} (hok : Careful rules w (.edit tree)) :
    Inv lines { w with tree } where
  closed := hok.2.1
  named path hp := h.named path (hok.2.2 path hp)
  kept path hp := h.kept path (hok.2.2 path hp)
  untracked path hp := h.untracked path (hok.2.2 path hp)
  unindexed path hp := h.unindexed path (hok.2.2 path hp)
  pending call hc := by
    have hnone : w.call = some call := hc
    rw [hok.1] at hnone
    cases hnone
  call call hc := by
    have hnone : w.call = some call := hc
    rw [hok.1] at hnone
    cases hnone
  sound := { h.sound with }

/-- A script stops where all that it wrote is kept. -/
theorem Inv.stop (hok : ∀ path ∈ w.written, w.Kept path) : Inv lines w.stop :=
  h.over (fun path hp => (h.kept path hp).elim (fun hkept => hkept) (hok path)) fun _ hkept => hkept

theorem Inv.fail (hc : w.call = some call)
    (hok : Careful rules w .fail) : Inv lines (w.fail call) := by
  unfold Careful at hok
  simp only [hc] at hok
  cases call with
  | deliver d stage =>
    have hpending := h.pending _ hc
    have hinv := (h.call _ hc).2
    cases stage with
    | mkdir file rest | clear file rest =>
      exact h.goto hc rfl (fun _ hp => hp) (List.forall_mem_cons.mp hpending).2
        ⟨hinv.1, fun file' hfile' => hinv.2.1 file' (mem_cons_of_mem _ hfile')⟩
    | _ => exact h.stop hok
  | remove stage =>
    have hinv : RemoveInv w stage := h.call _ hc
    have hwritten : ∀ path ∈ w.written, w.Kept path := fun path hmem => by
      rw [World.written, hc] at hmem
      cases hmem
    cases stage with
    | listed rest | removePersonal => exact h.stop hwritten
    | rm path rest =>
      refine h.gotoRemove hc (fun _ hpend => hpend.elim) fun q hq => ?_
      rcases hinv.2 q hq with rfl | hrest
      · exact absurd hq hok
      · exact hrest
    | filter => exact h.gotoRemove hc (fun _ hpend => hpend.elim) hinv
    | moveExclude => exact h.gotoRemove hc (fun _ hpend => hpend.elim) hinv.1

theorem kept_of_idle (hc : w.call = none) (hp : w.Placed path) : w.Kept path := by
  refine (h.kept path hp).resolve_right fun hmem => ?_
  rw [World.written, hc] at hmem
  cases hmem

/-- A call begins. -/
theorem Inv.begin (hidle : w.call = none)
    (hpending : ∀ path, ¬ call.Pending path) (hcall : CallInv { w with call := some call } call) :
    Inv lines (w.setCall call) :=
  { h with
    kept := fun path hp => by
      have hkept : w.Kept path := kept_of_idle h hidle hp
      exact .inl hkept
    pending := fun call' hc path hpend => by
      cases hc
      exact absurd hpend (hpending path)
    call := fun call' hc => by
      cases hc
      exact hcall
    sound := { h.sound with } }

end

/-! ## Runs -/

theorem inv_start : Inv (exclude.getD []) (start exclude) where
  closed _ _ hnode := nomatch hnode
  named _ hp := by
    obtain ⟨_, hnode, -⟩ := hp
    cases hnode
  kept _ hp := by
    obtain ⟨_, hnode, -⟩ := hp
    cases hnode
  untracked _ hp := by
    obtain ⟨_, hnode, -⟩ := hp
    cases hnode
  unindexed _ _ _ hindex := nomatch hindex
  pending _ hc := nomatch hc
  call _ hc := nomatch hc
  sound := {
    secret := fun _ hmem => nomatch hmem
    withdrawn := fun _ hmem => nomatch hmem
    touched := fun _ _ _ hmem => nomatch hmem
    outside := rfl }

theorem inv_step (hrules : rules.Documented) {action : Action} (h : Inv lines w)
    (hok : Careful rules w action) (hstep : step rules w action = some w') : Inv lines w' := by
  cases action with
  | deliver files =>
    unfold step at hstep
    dsimp only at hstep
    split at hstep
    · rename_i hidle
      cases hstep
      refine h.begin hidle (fun _ hpend => nomatch hpend) ⟨fun _ hmem => (nomatch hmem), rfl,
        fun path hp => ?_, fun _ hmem => nomatch hmem⟩
      obtain ⟨-, personal, hpersonal, ⟨manifest, hmanifest, hmem⟩, -⟩ := kept_of_idle h hidle hp
      simpa only [hpersonal, bind_some, hmanifest, getD_some] using hmem
    · cases hstep
  | remove =>
    unfold step at hstep
    dsimp only at hstep
    split at hstep
    · rename_i hidle
      split at hstep
      · rename_i personal hpersonal
        cases hstep
        refine h.begin hidle (fun _ hpend => hpend) fun path hp => ?_
        obtain ⟨-, personal', hpersonal', -, files, hfiles, hmem⟩ := kept_of_idle h hidle hp
        cases hpersonal.symm.trans hpersonal'
        rwa [hfiles]
      · rename_i hnone
        cases hstep
        refine h.withdrawn fun path hp => ?_
        obtain ⟨-, personal, hpersonal, -⟩ := kept_of_idle h hidle hp
        rw [hnone] at hpersonal
        cases hpersonal
    · cases hstep
  | proceed =>
    unfold step at hstep
    dsimp only at hstep
    split at hstep
    · rename_i d stage hc
      exact some.inj hstep ▸ h.deliver hc hok
    · rename_i stage hc
      exact some.inj hstep ▸ h.remove hc
    · cases hstep
  | fail =>
    obtain ⟨call, hc, rfl⟩ := map_eq_some_iff.mp hstep
    exact h.fail hc hok
  | cut =>
    obtain ⟨call, -, rfl⟩ := map_eq_some_iff.mp hstep
    exact h.stop hok
  | snapshot => exact some.inj hstep ▸ h.snapshot hrules hok
  | baseline paths | retrack index head => exact some.inj hstep ▸ h.retrack hok
  | edit tree => exact some.inj hstep ▸ h.edit hok

/-- **In every careful run personal files never leave with a sync.** -/
theorem personal_stays (hrules : rules.Documented) {exclude : Option (List Line)}
    (h : Reach (step rules) (Careful rules) (start exclude) w) : w.Sound (exclude.getD []) :=
  (h.invariant inv_start fun _ _ _ => inv_step hrules).sound

/-- No command of a script touches the snapshots' index. -/
theorem deliver_syncIndex (d : Delivery) (stage : DeliverStage) :
    (w.deliver d stage).syncIndex = w.syncIndex := by
  unfold World.deliver
  split
  all_goals first | rfl | (split <;> rfl)

theorem remove_syncIndex (stage : RemoveStage) : (w.remove stage).syncIndex = w.syncIndex := by
  unfold World.remove
  split
  all_goals first | rfl | (split <;> rfl)

/-- Where no snapshot was taken yet, a script may go on. -/
theorem reach_proceed {n : Nat} (hnone : w.syncIndex = none)
    (h : exec (step rules) w (List.replicate n .proceed) = some w') :
    Reach (step rules) (Careful rules) w w' := by
  induction n generalizing w with
  | zero =>
    cases h
    exact .init
  | succ n ih =>
    rw [replicate_succ, exec, bind_eq_some_iff] at h
    obtain ⟨w₁, hstep, hrest⟩ := h
    have hok : Careful rules w .proceed := fun _ _ _ _ index hindex => by
      rw [hnone] at hindex
      cases hindex
    have hindex : w₁.syncIndex = none := by
      unfold step at hstep
      dsimp only at hstep
      split at hstep
      · rw [← some.inj hstep, deliver_syncIndex, hnone]
      · rw [← some.inj hstep, remove_syncIndex, hnone]
      · cases hstep
    exact (Reach.tail .init hok hstep).trans (ih hindex hrest)

/-- No ignore files, and literal patterns only. -/
def plainRules : GitRules where
  ignoreFiles _ _ := none
  matchLine line path := if literalPath line = some (textOf path) then some true else none

theorem plainRules_documented : plainRules.Documented where
  literal line path h := if_pos h
  comment rest path := by
    have hnone : literalPath ('#' :: rest) = none := rfl
    simp only [plainRules, hnone, reduceCtorEq, if_false]
  negated line path h := by
    simp only [plainRules] at h
    split at h <;> cases h

def envFile : PersonalFile where
  path := [".env".toList]
  content := [65]
  fingerprint := "sha256:a".toList
  valid := by decide

/-- What is seen of a sandbox. -/
def World.shows (w : World) : List (Path × Node) × List Line × List Note :=
  (w.tree, w.excludeLines, w.log)

/-- A file is delivered. -/
theorem personal_stays_delivered : ∃ w : World,
    w.shows = ([(envFile.path, .file ⟨[65], true⟩)], personalExcludeBlock [envFile.path],
      [.touched envFile.path false false, .touched envFile.path false false]) ∧ w.Sound [] := by
  have hrun : (exec (step plainRules) (start none) (.deliver [envFile] ::
      List.replicate 16 .proceed)).map World.shows =
        some ([(envFile.path, .file ⟨[65], true⟩)], personalExcludeBlock [envFile.path],
          [.touched envFile.path false false, .touched envFile.path false false]) := by
            decide +kernel
  obtain ⟨w, hw, hshows⟩ := map_eq_some_iff.mp hrun
  rw [exec, bind_eq_some_iff] at hw
  obtain ⟨w₁, hfirst, hrest⟩ := hw
  have hok : Careful plainRules (start none) (.deliver [envFile]) := trivial
  have hreach : Reach (step plainRules) (Careful plainRules) (start none) w₁ :=
    .tail .init hok hfirst
  have hnone : w₁.syncIndex = none := by
    rw [← some.inj hfirst]
    rfl
  exact ⟨w, hshows, personal_stays plainRules_documented (hreach.trans (reach_proceed hnone hrest))⟩

/-- **A snapshot between a delivery's write and its block has the personal file.** -/
theorem leaked : ¬∀ w, Reach (step plainRules) anyEvent (start none) w → w.Sound [] := by
  intro hclaim
  have hrun : (exec (step plainRules) (start none) (.deliver [envFile] ::
      List.replicate 8 .proceed ++ [.snapshot])).map (fun w => w.log.head?) =
        some (some (.snapshot [(envFile.path, ⟨[65], true⟩)])) := by decide +kernel
  obtain ⟨w, hw, hhead⟩ := map_eq_some_iff.mp hrun
  obtain ⟨log, hlog⟩ := List.head?_eq_some_iff.mp hhead
  have hsecret := (hclaim w (reach_of_exec hw)).secret [(envFile.path, ⟨[65], true⟩)]
    (by rw [hlog]; exact mem_cons_self) _ mem_cons_self
  cases hsecret

end Catamorphic.Sandbox
