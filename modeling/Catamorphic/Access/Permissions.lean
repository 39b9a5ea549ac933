import Mathlib.Data.List.TakeWhile
import Catamorphic.Access.Scope

/-!
# Narrowing project permissions

A permission is `*`, or a thing with an action, and which permissions it covers is told by the two
parts. Covering is transitive, and two permissions over a common one are comparable but for
writing and publishing one thing, which both read it. So the grants that narrowing keeps cover what
both sides cover, unless one side reads a thing by writing it alone and the other by publishing it
alone.
-/

namespace Catamorphic.Access

open Cover List

/-! ## The parts of a permission -/

theorem isWord_colon {word : Text} (h : isWord word = true) : ∀ c ∈ word, c ≠ ':' := by
  cases word with
  | nil => cases h
  | cons first rest =>
    rw [isWord, Bool.and_eq_true, all_eq_true] at h
    intro c hc
    rcases mem_cons.mp hc with rfl | hc
    · rintro rfl
      exact absurd h.1 (by decide)
    · rintro rfl
      exact absurd (h.2 ':' hc) (by decide)

theorem isWord_star : isWord ['*'] = false := by
  decide

/-- A permission is `*`, or a thing and an action that are words, or any action. -/
theorem grant_parts {permission : Text} (h : grantPattern permission = true) :
    permission = ['*'] ∨ isWord (thing permission) = true ∧ ∃ act,
      permission = thing permission ++ ':' :: act ∧ action permission = some act := by
  rw [grantPattern, Bool.or_eq_true, Bool.and_eq_true] at h
  rcases h with hstar | ⟨hword, hrest⟩
  · exact .inl (of_decide_eq_true hstar)
  · refine .inr ⟨hword, ?_⟩
    cases hdrop : permission.dropWhile (· ≠ ':') with
    | nil =>
      rw [hdrop] at hrest
      cases hrest
    | cons colon rest =>
      rw [hdrop, Bool.or_eq_true] at hrest
      have hcolon : colon = ':' := by
        have hhead := head_dropWhile_not (l := permission) (· ≠ ':') (by rw [hdrop]; nofun)
        simp only [hdrop, head_cons] at hhead
        simpa using hhead
      have hno : ∀ c ∈ rest, c ≠ ':' := by
        rcases hrest with hstar | hword'
        · rw [of_decide_eq_true hstar]
          simp
        · exact isWord_colon hword'
      have hall : rest.takeWhile (· ≠ ':') = rest :=
        takeWhile_eq_self_iff.mpr fun c hc => decide_eq_true (hno c hc)
      refine ⟨rest, ?_, ?_⟩
      · rw [← hcolon, ← hdrop]
        exact takeWhile_append_dropWhile.symm
      · rw [action, hdrop]
        exact congrArg some hall

theorem thing_star : thing ['*'] = ['*'] := by
  decide

theorem action_star : action ['*'] = none := by
  decide

/-- A permission is told by its parts. -/
theorem parts_inj {x y : Text} (hx : grantPattern x = true) (hy : grantPattern y = true)
    (hthing : thing x = thing y) (haction : action x = action y) : x = y := by
  rcases grant_parts hx with rfl | ⟨-, act, hact, hof⟩
  · rcases grant_parts hy with rfl | ⟨-, act', -, hof'⟩
    · rfl
    · rw [action_star, hof'] at haction
      cases haction
  · rcases grant_parts hy with rfl | ⟨-, act', hact', hof'⟩
    · rw [action_star, hof] at haction
      cases haction
    · rw [hof, hof', Option.some.injEq] at haction
      rw [hact, hact', hthing, haction]

/-- The action of the first covers the action of the second, on one thing. -/
def actionCovers (granted wanted : Option Text) : Prop :=
  granted = some ['*'] ∨ granted = wanted ∨
    wanted = some read ∧ (granted = some write ∨ granted = some publish)

theorem permissionCovers_iff {x y : Text} (hx : grantPattern x = true)
    (hy : grantPattern y = true) : permissionCovers x y = true ↔
      x = ['*'] ∨ x ≠ ['*'] ∧ y ≠ ['*'] ∧ thing x = thing y ∧ actionCovers (action x)
        (action y) := by
  rcases grant_parts hx with rfl | ⟨hword, act, hact, hof⟩
  · simp [permissionCovers]
  · have hstar : x ≠ ['*'] := by
      rintro rfl
      cases hword
    have hempty : thing x ≠ [] := fun hnil => by
      rw [hnil] at hword
      cases hword
    have hystar : y = ['*'] → thing x ≠ thing y := by
      rintro rfl hsame
      rw [hsame, thing_star, isWord_star] at hword
      cases hword
    rw [permissionCovers]
    by_cases hsame : x = y
    · subst hsame
      simp [hstar, actionCovers]
    · by_cases hthing : thing x = thing y
      · have hne : action x ≠ action y := fun haction => hsame (parts_inj hx hy hthing haction)
        rw [if_neg (not_or.mpr ⟨hstar, hsame⟩), if_neg (not_or.mpr ⟨hempty, not_not.mpr hthing⟩)]
        have hy' : y ≠ ['*'] := fun hyeq => hystar hyeq hthing
        by_cases hall : action x = some ['*']
        · simp [hall, hstar, hy', hthing, actionCovers]
        · simp [hstar, hy', hthing, actionCovers, hne]
      · rw [if_neg (not_or.mpr ⟨hstar, hsame⟩), if_pos (.inr hthing)]
        simp [hstar, hthing]

variable {x y : ProjectPermissionRef} {act : Text}

/-! ## Covering on a project -/

theorem refCovers_iff : refCovers x y = true ↔
    x.projectId = y.projectId ∧ permissionCovers x.permission.text y.permission.text = true := by
  rw [refCovers, Bool.and_eq_true, decide_eq_true_eq]

theorem actionCovers_trans {a b c : Option Text} (hab : actionCovers a b) (hbc : actionCovers b c) :
    actionCovers a c := by
  have hread : read ≠ ['*'] ∧ read ≠ write ∧ read ≠ publish := by decide
  rcases hab with hall | rfl | ⟨rfl, hwrites⟩
  · exact .inl hall
  · exact hbc
  · -- Reading covers nothing but itself.
    rcases hbc with hall | rfl | ⟨-, hwrites' | hwrites'⟩
    · exact absurd (Option.some.inj hall) hread.1
    · exact .inr (.inr ⟨rfl, hwrites⟩)
    · exact absurd (Option.some.inj hwrites') hread.2.1
    · exact absurd (Option.some.inj hwrites') hread.2.2

theorem refCovers_trans (x y z : ProjectPermissionRef) (hxy : refCovers x y = true)
    (hyz : refCovers y z = true) : refCovers x z = true := by
  obtain ⟨hproject, hxy⟩ := refCovers_iff.mp hxy
  obtain ⟨hproject', hyz⟩ := refCovers_iff.mp hyz
  rw [permissionCovers_iff x.permission.pattern y.permission.pattern] at hxy
  rw [permissionCovers_iff y.permission.pattern z.permission.pattern] at hyz
  refine refCovers_iff.mpr ⟨hproject.trans hproject', ?_⟩
  rw [permissionCovers_iff x.permission.pattern z.permission.pattern]
  rcases hxy with hall | ⟨hx, hy, hthing, haction⟩
  · exact .inl hall
  · rcases hyz with hall | ⟨-, hz, hthing', haction'⟩
    · exact absurd hall hy
    · exact .inr ⟨hx, hz, hthing.trans hthing', actionCovers_trans haction haction'⟩

/-- A permission to do this with a thing. -/
def permissionOf (thing act : Text) : Text :=
  thing ++ ':' :: act

/-- One writes the thing and the other publishes it. -/
def Crossed (x y : ProjectPermissionRef) (t : Text) : Prop :=
  x.permission.text = permissionOf t write ∧ y.permission.text = permissionOf t publish ∨
    x.permission.text = permissionOf t publish ∧ y.permission.text = permissionOf t write

theorem text_of_action {x : ProjectPermission} (h : action x.text = some act) :
    x.text = permissionOf (thing x.text) act := by
  rcases grant_parts x.pattern with hstar | ⟨-, act', hact, hof⟩
  · rw [hstar, action_star] at h
    cases h
  · rw [hof, Option.some.injEq] at h
    rw [permissionOf, ← h]
    exact hact

variable {p : ProjectPermissionRef}

/-- **Two grants over one permission are comparable, or cross over its reading.** -/
theorem comparable (hx : refCovers x p = true) (hy : refCovers y p = true) :
    (refCovers y x = true ∨ refCovers x y = true) ∨
      Crossed x y (thing p.permission.text) ∧ action p.permission.text = some read := by
  obtain ⟨hproject, hx⟩ := refCovers_iff.mp hx
  obtain ⟨hproject', hy⟩ := refCovers_iff.mp hy
  rw [permissionCovers_iff x.permission.pattern p.permission.pattern] at hx
  rw [permissionCovers_iff y.permission.pattern p.permission.pattern] at hy
  have hsame : x.projectId = y.projectId := hproject.trans hproject'.symm
  have hxy := permissionCovers_iff x.permission.pattern y.permission.pattern
  have hyx := permissionCovers_iff y.permission.pattern x.permission.pattern
  rcases hx with hall | ⟨hxs, -, hthing, haction⟩
  · exact .inl (.inr (refCovers_iff.mpr ⟨hsame, hxy.mpr (.inl hall)⟩))
  · rcases hy with hall | ⟨hys, -, hthing', haction'⟩
    · exact .inl (.inl (refCovers_iff.mpr ⟨hsame.symm, hyx.mpr (.inl hall)⟩))
    · have hthings : thing x.permission.text = thing y.permission.text :=
        hthing.trans hthing'.symm
      have hleft : actionCovers (action x.permission.text) (action y.permission.text) →
          refCovers y x = true ∨ refCovers x y = true := fun hcovers =>
        .inr (refCovers_iff.mpr ⟨hsame, hxy.mpr (.inr ⟨hxs, hys, hthings, hcovers⟩)⟩)
      have hright : actionCovers (action y.permission.text) (action x.permission.text) →
          refCovers y x = true ∨ refCovers x y = true := fun hcovers =>
        .inl (refCovers_iff.mpr ⟨hsame.symm, hyx.mpr (.inr ⟨hys, hxs, hthings.symm, hcovers⟩)⟩)
      rcases haction with hall | heq | ⟨hread, hwrites⟩
      · exact .inl (hleft (.inl hall))
      · exact .inl (hright (heq ▸ haction'))
      · rcases haction' with hall | heq | ⟨-, hwrites'⟩
        · exact .inl (hright (.inl hall))
        · exact .inl (hleft (.inr (.inr ⟨heq.trans hread, hwrites⟩)))
        · rcases hwrites with hx | hx
          · rcases hwrites' with hy | hy
            · exact .inl (hleft (.inr (.inl (hx.trans hy.symm))))
            · exact .inr ⟨.inl ⟨hthing ▸ text_of_action hx, hthing' ▸ text_of_action hy⟩, hread⟩
          · rcases hwrites' with hy | hy
            · exact .inr ⟨.inr ⟨hthing ▸ text_of_action hx, hthing' ▸ text_of_action hy⟩, hread⟩
            · exact .inl (hleft (.inr (.inl (hx.trans hy.symm))))

/-! ## The grants that are kept -/

theorem permissionsCover_iff {refs : List ProjectPermissionRef} {projectId : Text}
    {permission : ProjectPermission} : permissionsCover refs projectId permission.text = true ↔
      ∃ ref ∈ refs, refCovers ref ⟨projectId, permission⟩ = true :=
  any_eq_true

/-- Leaving out later copies leaves out no grant. -/
theorem mem_distinct {kept : List ProjectPermissionRef} :
    x ∈ (kept.zipIdx.filter fun (ref, index) => kept.findIdx (fun other =>
      other.projectId = ref.projectId && other.permission.text = ref.permission.text) = index).map
        Prod.fst ↔ x ∈ kept := by
  constructor
  · intro hx
    obtain ⟨⟨y, index⟩, hy, rfl⟩ := mem_map.mp hx
    have hat := mk_mem_zipIdx_iff_getElem?.mp (mem_filter.mp hy).1
    exact mem_of_getElem? hat
  · intro hx
    -- The first copy is the one that stays.
    have hlt : kept.findIdx (fun other => other.projectId = x.projectId &&
        other.permission.text = x.permission.text) < kept.length :=
      findIdx_lt_length_of_exists ⟨x, hx, by rw [decide_eq_true rfl, decide_eq_true rfl]; rfl⟩
    have hfirst := findIdx_getElem (w := hlt)
    rw [Bool.and_eq_true, decide_eq_true_eq, decide_eq_true_eq] at hfirst
    have hsame : kept[kept.findIdx fun other => other.projectId = x.projectId &&
        other.permission.text = x.permission.text] = x := by
      obtain ⟨hproject, htext⟩ := hfirst
      generalize kept[kept.findIdx fun other => other.projectId = x.projectId &&
        other.permission.text = x.permission.text] = y at hproject htext
      obtain ⟨projectId, text, pattern⟩ := y
      obtain ⟨projectId', text', pattern'⟩ := x
      obtain rfl : projectId = projectId' := hproject
      obtain rfl : text = text' := htext
      rfl
    refine mem_map.mpr ⟨(x, _), mem_filter.mpr ⟨?_, decide_eq_true rfl⟩, rfl⟩
    rw [mk_mem_zipIdx_iff_getElem?, List.getElem?_eq_getElem hlt, hsame]

variable {grants held : List ProjectPermissionRef} {scope : List ArtifactRef}

/-- The grants kept are the meet of both lists. -/
theorem mem_intersect :
    x ∈ intersectProjectPermissions grants ⟨some scope, held⟩ ↔ x ∈ meet refCovers grants held := by
  have hcovers : ∀ x y : ProjectPermissionRef, refCovers x y =
      (decide (y.projectId = x.projectId) && permissionCovers x.permission.text
        y.permission.text) := by
    intro x y
    rw [refCovers, decide_eq_decide.mpr eq_comm]
  have hheld : ∀ grant : ProjectPermissionRef,
      hasProjectPermission ⟨some scope, held⟩ grant.projectId grant.permission.text =
        held.any fun other => refCovers other grant := fun grant => rfl
  have hkept : (grants.flatMap fun grant =>
      if hasProjectPermission ⟨some scope, held⟩ grant.projectId grant.permission.text then [grant]
      else held.filter fun other => other.projectId = grant.projectId &&
        permissionCovers grant.permission.text other.permission.text) =
      meet refCovers grants held := by
    simp only [meet, hheld, hcovers]
  exact mem_distinct.trans (by rw [hkept])

/-- The list reads the thing on the project by this action alone. -/
def ReadsBy (refs : List ProjectPermissionRef) (projectId t act : Text) : Prop :=
  (∃ ref ∈ refs, ref.projectId = projectId ∧ ref.permission.text = permissionOf t act) ∧
    ∀ ref ∈ refs, ref.projectId = projectId →
      permissionCovers ref.permission.text (permissionOf t read) = true →
        ref.permission.text = permissionOf t act

/-- No thing is read by writing it on one side alone and by publishing it on the other. -/
def ReadsMeet (granted held : List ProjectPermissionRef) : Prop :=
  ∀ projectId t, ¬(ReadsBy granted projectId t write ∧ ReadsBy held projectId t publish) ∧
    ¬(ReadsBy granted projectId t publish ∧ ReadsBy held projectId t write)

variable {t act' : Text}

theorem permissionOf_inj (h : permissionOf t act = permissionOf t act') : act = act' :=
  tail_eq_of_cons_eq (append_cancel_left h)

theorem Crossed.symm (h : Crossed x y t) : Crossed y x t :=
  h.elim (fun hxy => .inr ⟨hxy.2, hxy.1⟩) fun hxy => .inl ⟨hxy.2, hxy.1⟩

/-- What crosses with writing is publishing, and the other way round. -/
theorem Crossed.of_write (h : Crossed x y t) (hx : x.permission.text = permissionOf t write) :
    y.permission.text = permissionOf t publish := by
  rcases h with ⟨-, hy⟩ | ⟨hx', -⟩
  · exact hy
  · exact absurd (permissionOf_inj (hx.symm.trans hx')) (by decide)

theorem Crossed.of_publish (h : Crossed x y t) (hx : x.permission.text = permissionOf t publish) :
    y.permission.text = permissionOf t write := by
  rcases h with ⟨hx', -⟩ | ⟨-, hy⟩
  · exact absurd (permissionOf_inj (hx.symm.trans hx')) (by decide)
  · exact hy

/-- Grants that are all crossed over a permission read a thing by one action on each side. -/
theorem readsBy_of_crossed {granted : List ProjectPermissionRef}
    {grant other : ProjectPermissionRef} (hgrant : grant ∈ granted) (hother : other ∈ held)
    (hcovers : refCovers grant p = true) (hcovers' : refCovers other p = true)
    (haction : action p.permission.text = some read)
    (hcrossed : ∀ x ∈ granted, ∀ y ∈ held, refCovers x p = true → refCovers y p = true →
      Crossed x y (thing p.permission.text)) :
    ¬ReadsMeet granted held := by
  intro hmeet
  have hp : p.permission.text = permissionOf (thing p.permission.text) read :=
    text_of_action haction
  have hover : ∀ x : ProjectPermissionRef, x.projectId = p.projectId →
      permissionCovers x.permission.text (permissionOf (thing p.permission.text) read) = true →
        refCovers x p = true :=
    fun x hproject hreads => refCovers_iff.mpr ⟨hproject, hp ▸ hreads⟩
  have hproject := (refCovers_iff.mp hcovers).1
  have hproject' := (refCovers_iff.mp hcovers').1
  rcases hcrossed grant hgrant other hother hcovers hcovers' with ⟨hx, hy⟩ | ⟨hx, hy⟩
  · refine (hmeet p.projectId (thing p.permission.text)).1 ⟨⟨⟨grant, hgrant, hproject, hx⟩, ?_⟩,
      ⟨other, hother, hproject', hy⟩, ?_⟩
    · exact fun x hmem hof hreads =>
        (hcrossed x hmem other hother (hover x hof hreads) hcovers').symm.of_publish hy
    · exact fun y hmem hof hreads =>
        (hcrossed grant hgrant y hmem hcovers (hover y hof hreads)).of_write hx
  · refine (hmeet p.projectId (thing p.permission.text)).2 ⟨⟨⟨grant, hgrant, hproject, hx⟩, ?_⟩,
      ⟨other, hother, hproject', hy⟩, ?_⟩
    · exact fun x hmem hof hreads =>
        (hcrossed x hmem other hother (hover x hof hreads) hcovers').symm.of_write hy
    · exact fun y hmem hof hreads =>
        (hcrossed grant hgrant y hmem hcovers (hover y hof hreads)).of_publish hx

/-- A permission is cut at its one colon. -/
theorem thing_of_text {x : ProjectPermission} (h : x.text = permissionOf t act)
    (hlength : act ≠ []) : isWord t = true := by
  rcases grant_parts x.pattern with hstar | ⟨hword, act', hparts, haction⟩
  · rw [h, permissionOf] at hstar
    have hlen := congrArg List.length hstar
    rw [length_append, length_cons, length_singleton] at hlen
    have := length_pos_iff.mpr hlength
    omega
  · have hno : ∀ c ∈ act', c ≠ ':' := by
      intro c hc
      rw [action] at haction
      split at haction
      · cases haction
      · rw [← Option.some.inj haction] at hc
        have hnot := mem_takeWhile_imp hc
        exact of_decide_eq_true hnot
    generalize thing x.text = word at hword hparts
    rw [h, permissionOf] at hparts
    rcases append_eq_append_iff.mp hparts with ⟨rest, hthing, hrest⟩ | ⟨rest, ht, hrest⟩
    · cases rest with
      | nil =>
        rw [append_nil] at hthing
        rwa [← hthing]
      | cons c rest =>
        obtain ⟨rfl, -⟩ := List.cons.inj hrest
        exact absurd rfl (isWord_colon hword ':' (by rw [hthing]; simp))
    · cases rest with
      | nil =>
        rw [append_nil] at ht
        rwa [ht]
      | cons c rest =>
        obtain ⟨-, hact⟩ := List.cons.inj hrest
        exact absurd rfl (hno ':' (by rw [hact]; simp))

/-- The parts of a permission to do this with a thing. -/
theorem permissionOf_parts (h : isWord t = true) (hact : ∀ c ∈ act, c ≠ ':') :
    thing (permissionOf t act) = t ∧ (permissionOf t act).dropWhile (· ≠ ':') = ':' :: act ∧
      action (permissionOf t act) = some act := by
  have hall : ∀ c ∈ t, decide (c ≠ ':') = true := fun c hc => decide_eq_true (isWord_colon h c hc)
  have hdrop : (permissionOf t act).dropWhile (· ≠ ':') = ':' :: act := by
    rw [permissionOf, dropWhile_append_of_pos hall]
    rfl
  refine ⟨?_, hdrop, ?_⟩
  · rw [thing, permissionOf, takeWhile_append_of_pos hall]
    exact append_nil t
  · rw [action, hdrop]
    exact congrArg some (takeWhile_eq_self_iff.mpr fun c hc => decide_eq_true (hact c hc))

theorem actions_colon : (∀ c ∈ read, c ≠ ':') ∧ (∀ c ∈ write, c ≠ ':') ∧ ∀ c ∈ publish, c ≠
    ':' := by
  have hall (act : Text) (h : act.all (· ≠ ':') = true) : ∀ c ∈ act, c ≠ ':' := fun c hc =>
    of_decide_eq_true (all_eq_true.mp h c hc)
  exact ⟨hall read (by decide), hall write (by decide), hall publish (by decide)⟩

/-- The reading of a thing is a permission. -/
theorem pattern_read (h : isWord t = true) : grantPattern (permissionOf t read) = true := by
  obtain ⟨hthing, hdrop, -⟩ := permissionOf_parts h actions_colon.1
  rw [grantPattern, hthing, hdrop, h]
  exact Bool.or_true _

/-- What covers what, of one thing. -/
theorem covers_of_word (h : isWord t = true) (hact : ∀ c ∈ act, c ≠ ':')
    (hact' : ∀ c ∈ act', c ≠ ':') (hall : act ≠ ['*']) :
    permissionCovers (permissionOf t act) (permissionOf t act') = true ↔
      act = act' ∨ act' = read ∧ (act = write ∨ act = publish) := by
  obtain ⟨hthing, -, haction⟩ := permissionOf_parts h hact
  obtain ⟨hthing', -, haction'⟩ := permissionOf_parts h hact'
  have hstar : permissionOf t act ≠ ['*'] := fun hstar => by
    rw [hstar, action_star] at haction
    cases haction
  have hempty : t ≠ [] := fun hnil => by
    rw [hnil] at h
    cases h
  rw [permissionCovers, hthing, hthing', haction, haction']
  by_cases hsame : act = act'
  · simp [hsame]
  · have hne : permissionOf t act ≠ permissionOf t act' := fun heq => hsame (permissionOf_inj heq)
    simp [hstar, hne, hempty, hall, hsame]

/-- Writing and publishing a thing both read it, and neither covers the other. -/
theorem crossed_reads (h : isWord t = true)
    (hacts : act = write ∧ act' = publish ∨ act = publish ∧ act' = write) :
    permissionCovers (permissionOf t act) (permissionOf t read) = true ∧
      permissionCovers (permissionOf t act') (permissionOf t read) = true ∧
        permissionCovers (permissionOf t act) (permissionOf t act') ≠ true ∧
          permissionCovers (permissionOf t act') (permissionOf t act) ≠ true := by
  obtain ⟨hread, hwrite, hpublish⟩ := actions_colon
  have hstars : write ≠ ['*'] ∧ publish ≠ ['*'] := by decide
  rcases hacts with ⟨rfl, rfl⟩ | ⟨rfl, rfl⟩
  · rw [ne_eq, ne_eq, covers_of_word h hwrite hread hstars.1,
      covers_of_word h hpublish hread hstars.2, covers_of_word h hwrite hpublish hstars.1,
      covers_of_word h hpublish hwrite hstars.2]
    decide
  · rw [ne_eq, ne_eq, covers_of_word h hwrite hread hstars.1,
      covers_of_word h hpublish hread hstars.2, covers_of_word h hwrite hpublish hstars.1,
      covers_of_word h hpublish hwrite hstars.2]
    decide

/-- **Narrowed permissions cover what both sides cover, but where reading comes of two actions.** -/
theorem permissions_iff : (∀ projectId (p : ProjectPermission),
      permissionsCover (intersectProjectPermissions grants ⟨some scope, held⟩) projectId p.text =
        true ↔ permissionsCover grants projectId p.text = true ∧
          hasProjectPermission ⟨some scope, held⟩ projectId p.text = true) ↔
      ReadsMeet grants held := by
  have hkept : ∀ projectId (p : ProjectPermission), permissionsCover
      (intersectProjectPermissions grants ⟨some scope, held⟩) projectId p.text = true ↔
        ∃ grant ∈ grants, ∃ other ∈ held, refCovers grant ⟨projectId, p⟩ = true ∧
          refCovers other ⟨projectId, p⟩ = true ∧
            (refCovers other grant = true ∨ refCovers grant other = true) := by
    intro projectId p
    rw [permissionsCover_iff, ← covers_meet refCovers_trans]
    exact exists_congr fun x => and_congr_left' mem_intersect
  have hheld : ∀ projectId (p : ProjectPermission),
      hasProjectPermission ⟨some scope, held⟩ projectId p.text = true ↔
        ∃ other ∈ held, refCovers other ⟨projectId, p⟩ = true :=
    fun projectId p => permissionsCover_iff
  constructor
  · intro hexact projectId t
    have hlost : ∀ act act' : Text, (act = write ∧ act' = publish ∨ act = publish ∧ act' = write) →
        ¬(ReadsBy grants projectId t act ∧ ReadsBy held projectId t act') := by
      rintro act act' hacts ⟨⟨⟨grant, hgrant, hproject, htext⟩, hby⟩,
        ⟨other, hother, hproject', htext'⟩, hby'⟩
      have hword : isWord t = true :=
        thing_of_text htext (by rcases hacts with ⟨rfl, -⟩ | ⟨rfl, -⟩ <;> decide)
      have hreads := crossed_reads hword hacts
      let p : ProjectPermission := ⟨permissionOf t read, pattern_read hword⟩
      -- Reading the thing is covered on both sides, and by no grant that is kept.
      have hboth : permissionsCover grants projectId p.text = true ∧
          hasProjectPermission ⟨some scope, held⟩ projectId p.text = true := by
        rw [permissionsCover_iff, hheld]
        exact ⟨⟨grant, hgrant, refCovers_iff.mpr ⟨hproject, htext ▸ hreads.1⟩⟩,
          other, hother, refCovers_iff.mpr ⟨hproject', htext' ▸ hreads.2.1⟩⟩
      obtain ⟨x, hx, y, hy, hxp, hyp, hcomp⟩ :=
        (hkept projectId p).mp ((hexact projectId p).mpr hboth)
      obtain ⟨hxproject, hxp⟩ := refCovers_iff.mp hxp
      obtain ⟨hyproject, hyp⟩ := refCovers_iff.mp hyp
      have hxtext := hby x hx hxproject hxp
      have hytext := hby' y hy hyproject hyp
      rcases hcomp with hcover | hcover
      · have := (refCovers_iff.mp hcover).2
        rw [hxtext, hytext] at this
        exact hreads.2.2.2 this
      · have := (refCovers_iff.mp hcover).2
        rw [hxtext, hytext] at this
        exact hreads.2.2.1 this
    exact ⟨hlost write publish (.inl ⟨rfl, rfl⟩), hlost publish write (.inr ⟨rfl, rfl⟩)⟩
  · intro hmeet projectId p
    rw [hkept, hheld, permissionsCover_iff]
    constructor
    · rintro ⟨grant, hgrant, other, hother, hcovers, hcovers', -⟩
      exact ⟨⟨grant, hgrant, hcovers⟩, other, hother, hcovers'⟩
    · rintro ⟨⟨grant, hgrant, hcovers⟩, other, hother, hcovers'⟩
      by_contra hnone
      have hcross : ∀ x ∈ grants, ∀ y ∈ held, refCovers x ⟨projectId, p⟩ = true →
          refCovers y ⟨projectId, p⟩ = true →
            Crossed x y (thing p.text) ∧ action p.text = some read := by
        intro x hx y hy hxp hyp
        rcases comparable hxp hyp with hcomp | hcrossed
        · exact absurd ⟨x, hx, y, hy, hxp, hyp, hcomp⟩ hnone
        · exact hcrossed
      exact readsBy_of_crossed hgrant hother hcovers hcovers'
        (hcross grant hgrant other hother hcovers hcovers').2
        (fun x hx y hy hxp hyp => (hcross x hx y hy hxp hyp).1) hmeet

end Catamorphic.Access
