import Mathlib.Data.List.Perm.Basic
import Catamorphic.Lib.Table
import Catamorphic.Identity.DirectoryRoles

/-!
# The union of roles

Outside of the roles that the mapping tracks, a membership has just the roles granted by hand. A
pass that writes the membership keeps this for the roles it is about to track; so when it ends,
the roles are those granted by hand and those it tracks. What the mapping takes away must not
have been granted by hand too: the code takes it away all the same.
-/

namespace Catamorphic.Identity.DirectoryRoles

open Function List Option

/-! ## Role lists -/

theorem nodup_eraseDups (roles : List Role) : roles.eraseDups.Nodup := by
  induction hlen : roles.length using Nat.strongRecOn generalizing roles with
  | ind n ih =>
    cases roles with
    | nil => exact nodup_nil
    | cons role roles =>
      rw [eraseDups_cons, nodup_cons, mem_eraseDups]
      refine ⟨fun hmem => ?_, ih _ ?_ _ rfl⟩
      · simpa using (mem_filter.mp hmem).2
      · rw [← hlen, length_cons, Nat.lt_succ_iff]
        exact length_filter_le ..

/-- The roles that the membership of a settlement has. -/
def Settlement.current (s : Settlement) : List Role := (s.membership.map (·.roles)).getD []

variable {s : Settlement} {role : Role}

theorem Settlement.mem_next :
    role ∈ s.next ↔ role ∈ s.current ∧ role ∉ s.previous ∨ role ∈ s.desired := by
  rw [Settlement.next, mem_eraseDups, mem_append, Settlement.kept, mem_filter]
  simp [Settlement.current]

/-- A membership that is not to change has the roles it should have. -/
theorem Settlement.mem_next_of_unchanged (h : s.changed = false) :
    role ∈ s.current ↔ role ∈ s.next := by
  rw [Settlement.changed, Bool.or_eq_false_iff] at h
  obtain ⟨hlen, hany⟩ := h
  have hlen : s.next.length = s.current.length := by simpa [Settlement.current] using hlen
  have hsub : s.next ⊆ s.current := by
    intro r hr
    have hin := any_eq_false.mp hany r hr
    simpa [Settlement.current] using hin
  have hsubperm := subperm_of_subset (nodup_eraseDups _) hsub
  exact (hsubperm.perm_of_length_le (Nat.le_of_eq hlen.symm)).mem_iff.symm

variable {row : Option Membership} {hand : Membership}

/-! ## Updates of one membership -/

section Updates

variable {w : World} {p p' : ProjectId} {u u' : UserId}

/-- One entry of a table of two keys is set. -/
theorem update_update {α : Type} {f : ProjectId → UserId → α} {value : α} :
    update f p (update (f p) u value) p' u' = if p' = p ∧ u' = u then value else f p' u' := by
  by_cases hp : p' = p
  · subst hp
    by_cases hu : u' = u
    · simp [hu]
    · simp [hu]
  · simp [hp]

theorem memberships_setMembership : (w.setMembership p u row).memberships p' u' =
      if p' = p ∧ u' = u then row else w.memberships p' u' := update_update

theorem hand_setHand :
    (w.setHand p u hand).hand p' u' = if p' = p ∧ u' = u then hand else w.hand p' u' :=
  update_update

theorem grants_setGrants {roles : Option (List Role)} :
    (w.setGrants p u roles).directoryGrants p' u' =
      if p' = p ∧ u' = u then roles else w.directoryGrants p' u' := update_update

end Updates

/-! ## The invariant -/

/-- What holds of one membership. -/
structure Settled (w : World) (p : ProjectId) (u : UserId) : Prop where
  /-- Outside of what is tracked there is what was granted by hand. -/
  tracked : (∀ j, ¬w.Untracked p u j) → ∀ role, role ∉ (w.directoryGrants p u).getD [] →
    (role ∈ w.roles p u ↔ role ∈ (w.hand p u).roles)
  /-- The same for what is about to be tracked. -/
  written : ∀ j pass s, w.passes j = some pass → pass.userId = u →
    pass.phase = .tracking p s true → ∀ role, role ∉ s.desired →
      (role ∈ w.roles p u ↔ role ∈ (w.hand p u).roles)
  single : ∀ j j', w.Untracked p u j → w.Untracked p u j' → j = j'
  absent : w.memberships p u = none → w.hand p u = ⟨[], []⟩
  grants : ∀ row, w.memberships p u = some row → row.grants = (w.hand p u).grants
  /-- A pass that wrote nothing had nothing to write. -/
  unchanged : ∀ j pass s, w.passes j = some pass → pass.userId = u →
    pass.phase = .tracking p s false → s.changed = false

def Sound (w : World) : Prop := ∀ p u, Settled w p u

theorem sound_empty : Sound empty := fun _ _ =>
  ⟨fun _ _ _ => Iff.rfl, fun _ _ _ h => (by cases h), fun _ _ ⟨_, _, h, _⟩ => (by cases h),
    fun _ => rfl, fun _ h => (by cases h), fun _ _ _ h => (by cases h)⟩

section Frames

variable {w w' : World} {p p' : ProjectId} {u u' : UserId} {i : PassId} {pass : Pass}

/-- Only passes go on: what a membership needs of them. -/
theorem Settled.passes (h : Settled w p u) (hm : w'.memberships p u = w.memberships p u)
    (hh : w'.hand p u = w.hand p u)
    (htracked : (∀ j, ¬w'.Untracked p u j) → ∀ role, role ∉ (w'.directoryGrants p u).getD [] →
      (role ∈ w.roles p u ↔ role ∈ (w.hand p u).roles))
    (hnew : ∀ j other s wrote, w'.passes j = some other → other.userId = u →
      other.phase = .tracking p s wrote →
        (∃ old, w.passes j = some old ∧ old.userId = u ∧ old.phase = .tracking p s wrote) ∨
          wrote = false ∧ s.changed = false) : Settled w' p u := by
  have hroles : w'.roles p u = w.roles p u := by rw [World.roles, World.roles, hm]
  have hback {j : PassId} (hj : w'.Untracked p u j) : w.Untracked p u j := by
    obtain ⟨other, s, hother, hu, hphase⟩ := hj
    rcases hnew j other s true hother hu hphase with ⟨old, hold, hold', hphase'⟩ | ⟨hfalse, -⟩
    · exact ⟨old, s, hold, hold', hphase'⟩
    · cases hfalse
  refine ⟨fun hno role hrole => ?_, fun j other s hother hu hphase role hrole => ?_,
    fun j j' hj hj' => h.single j j' (hback hj) (hback hj'), fun hnone => ?_, fun row hrow => ?_,
    fun j other s hother hu hphase => ?_⟩
  · rw [hroles, hh]
    exact htracked hno role hrole
  · rw [hroles, hh]
    rcases hnew j other s true hother hu hphase with ⟨old, hold, hold', hphase'⟩ | ⟨hfalse, -⟩
    · exact h.written j old s hold hold' hphase' role hrole
    · cases hfalse
  · rw [hh]
    exact h.absent (hm.symm.trans hnone)
  · rw [hh]
    exact h.grants row (hm.symm.trans hrow)
  · rcases hnew j other s false hother hu hphase with ⟨old, hold, hold', hphase'⟩ | ⟨-, hsame⟩
    · exact h.unchanged j old s hold hold' hphase'
    · exact hsame

/-- One pass changes, between whose writes the membership is not. -/
theorem Settled.onePass (h : Settled w p u) (hm : w'.memberships p u = w.memberships p u)
    (hh : w'.hand p u = w.hand p u) (hg : w'.directoryGrants p u = w.directoryGrants p u)
    (hp : ∀ j, j ≠ i → w'.passes j = w.passes j) (hold : ¬w.Untracked p u i)
    (hnew : ∀ other s wrote, w'.passes i = some other → other.userId = u →
      other.phase = .tracking p s wrote → wrote = false ∧ s.changed = false) :
    Settled w' p u := by
  refine h.passes hm hh (fun hno role hrole => ?_) fun j other s wrote hother hu hphase => ?_
  · rw [hg] at hrole
    refine h.tracked (fun j hj => hno j ?_) role hrole
    have hne : j ≠ i := by
      rintro rfl
      exact hold hj
    obtain ⟨other, s, hother, hrest⟩ := hj
    exact ⟨other, s, (hp j hne).trans hother, hrest⟩
  · by_cases hj : j = i
    · subst hj
      exact .inr (hnew other s wrote hother hu hphase)
    · exact .inl ⟨other, (hp j hj).symm.trans hother, hu, hphase⟩

/-- A membership is set by hand. -/
theorem Settled.byHand (h : Settled w p u) (hp : w'.passes = w.passes)
    (hm : w'.memberships p u = some (w'.hand p u) ∨
      w'.memberships p u = none ∧ w'.hand p u = ⟨[], []⟩) : Settled w' p u := by
  have hroles : w'.roles p u = (w'.hand p u).roles := by
    rw [World.roles]
    rcases hm with hm | ⟨hm, hh⟩
    · rw [hm]
      rfl
    · rw [hm, hh]
      rfl
  have hback {j : PassId} (hj : w'.Untracked p u j) : w.Untracked p u j := by
    obtain ⟨other, s, hother, hrest⟩ := hj
    exact ⟨other, s, hp ▸ hother, hrest⟩
  refine ⟨fun _ role _ => by rw [hroles], fun _ _ _ _ _ _ role _ => by rw [hroles],
    fun j j' hj hj' => h.single j j' (hback hj) (hback hj'), fun hnone => ?_, fun row hrow => ?_,
    fun j other s hother => h.unchanged j other s (hp ▸ hother)⟩
  · rcases hm with hm | ⟨-, hh⟩
    · rw [hm] at hnone
      cases hnone
    · exact hh
  · rcases hm with hm | ⟨hm, -⟩
    · rw [hm] at hrow
      rw [← some.inj hrow]
    · rw [hm] at hrow
      cases hrow

end Frames

variable {lower : Group → Group} {action : Action}

/-! ## One step -/

section Steps

variable {w w' : World} {p : ProjectId} {u : UserId} {i : PassId} {pass : Pass} {s : Settlement}

theorem not_untracked (hpass : w.passes i = some pass)
    (hphase : ∀ s, pass.phase ≠ .tracking p s true) : ¬w.Untracked p u i := by
  rintro ⟨other, s, hother, -, hother'⟩
  cases hpass.symm.trans hother
  exact hphase s hother'

/-- Outside of what the mapping grants now there is what was granted by hand, once the
membership is as it should be. -/
theorem mem_next_iff (h : Settled w p u) (hno : ∀ j, ¬w.Untracked p u j) (hcur : w.Current p u s)
    (hrole : role ∉ s.desired) : role ∈ s.next ↔ role ∈ (w.hand p u).roles := by
  have hcurrent : s.current = w.roles p u := by
    rw [Settlement.current, ← hcur.membership, World.roles]
  rw [Settlement.mem_next, hcurrent]
  by_cases hprev : role ∈ s.previous
  · simp [hprev, hrole, hcur.byHand role hprev hrole]
  · have htracked := h.tracked hno role (by rwa [hcur.tracked])
    simp [hprev, hrole, htracked]

/-- What the membership is after the write. -/
theorem writeMembership_roles : (w.writeMembership p u s).roles p u = s.next ∧
      (w.writeMembership p u s).memberships p u = s.write := by
  have hrow : (w.writeMembership p u s).memberships p u = s.write := by
    unfold World.writeMembership
    cases hwrite : s.write with
    | none | some row => exact memberships_setMembership.trans (if_pos ⟨rfl, rfl⟩)
  refine ⟨?_, hrow⟩
  rw [World.roles, hrow, Settlement.write]
  split
  · rename_i hnext
    exact (List.isEmpty_iff.mp hnext).symm
  · rfl

theorem writeMembership_hand : (w.writeMembership p u s).hand p u =
      if s.next.isEmpty then ⟨(w.hand p u).roles, []⟩ else w.hand p u := by
  unfold World.writeMembership Settlement.write
  by_cases hnext : s.next.isEmpty = true
  · rw [if_pos hnext, if_pos hnext]
    exact hand_setHand.trans (if_pos ⟨rfl, rfl⟩)
  · rw [if_neg hnext, if_neg hnext]
    rfl

/-- Nothing else is written. -/
theorem writeMembership_frame : (w.writeMembership p u s).passes = w.passes ∧
      (w.writeMembership p u s).directoryGrants = w.directoryGrants := by
  unfold World.writeMembership
  cases s.write with
  | none => exact ⟨rfl, rfl⟩
  | some row => exact ⟨rfl, rfl⟩

theorem writeMembership_policies : (w.writeMembership p u s).policies = w.policies ∧
      (w.writeMembership p u s).projects = w.projects := by
  unfold World.writeMembership
  cases s.write with
  | none => exact ⟨rfl, rfl⟩
  | some row => exact ⟨rfl, rfl⟩

theorem writeMembership_of_ne {p' : ProjectId} {u' : UserId} (hne : ¬(p' = p ∧ u' = u)) :
    (w.writeMembership p u s).memberships p' u' = w.memberships p' u' ∧
      (w.writeMembership p u s).hand p' u' = w.hand p' u' := by
  unfold World.writeMembership
  cases s.write with
  | none =>
    exact ⟨memberships_setMembership.trans (if_neg hne), hand_setHand.trans (if_neg hne)⟩
  | some row => exact ⟨memberships_setMembership.trans (if_neg hne), rfl⟩

section

variable (h : Sound w) (hpass : w.passes i = some pass)
include h hpass

/-- The membership is written. -/
theorem Sound.writing (hphase : pass.phase = .writing p s) (hcur : w.Current p pass.userId s)
    (hno : ∀ j, ¬w.Untracked p pass.userId j) : Sound ((w.writeMembership p pass.userId s).setPass i
      { pass with phase := .tracking p s true }) := by
  intro p' u'
  obtain ⟨hpasses, hgrants⟩ := @writeMembership_frame w p pass.userId s
  have hothers {j : PassId} (hj : j ≠ i) : ((w.writeMembership p pass.userId s).setPass i
      { pass with phase := .tracking p s true }).passes j = w.passes j :=
    (update_of_ne hj ..).trans (congrFun hpasses j)
  by_cases hpu : p' = p ∧ u' = pass.userId
  · obtain ⟨rfl, rfl⟩ := hpu
    have hw := h p' pass.userId
    obtain ⟨hroles, hrow⟩ := @writeMembership_roles w p' pass.userId s
    have hhand := @writeMembership_hand w p' pass.userId s
    have hnext {role : Role} (hrole : role ∉ s.desired) := mem_next_iff hw hno hcur hrole
    have hhandRoles :
        ((w.writeMembership p' pass.userId s).hand p' pass.userId).roles =
          (w.hand p' pass.userId).roles := by
      rw [hhand]
      split <;> rfl
    have hself : ((w.writeMembership p' pass.userId s).setPass i
        { pass with phase := .tracking p' s true }).Untracked p' pass.userId i :=
      ⟨_, s, update_self .., rfl, rfl⟩
    have honly {j : PassId} (hj : ((w.writeMembership p' pass.userId s).setPass i
        { pass with phase := .tracking p' s true }).Untracked p' pass.userId j) : j = i := by
      by_contra hji
      obtain ⟨other, s', hother, hrest⟩ := hj
      exact hno j ⟨other, s', (hothers hji).symm.trans hother, hrest⟩
    refine ⟨fun hnone => absurd hself (hnone i), fun j other s' hother hu hphase' role hrole => ?_,
      fun j j' hj hj' => (honly hj).trans (honly hj').symm, fun hnone => ?_, fun row hsome => ?_,
      fun j other s' hother hu hphase' => ?_⟩
    · have hji := honly ⟨other, s', hother, hu, hphase'⟩
      subst hji
      cases (update_self ..).symm.trans hother
      cases hphase'
      show role ∈ (w.writeMembership p' pass.userId s).roles p' pass.userId ↔
        role ∈ ((w.writeMembership p' pass.userId s).hand p' pass.userId).roles
      rw [hroles, hhandRoles]
      exact hnext hrole
    · -- Who is left without a role was granted none by hand.
      have hnone : s.write = none := hrow.symm.trans hnone
      have hempty : s.next.isEmpty = true := by
        rw [Settlement.write] at hnone
        by_contra hne
        rw [if_neg hne] at hnone
        cases hnone
      show (w.writeMembership p' pass.userId s).hand p' pass.userId = ⟨[], []⟩
      have hnil : (w.hand p' pass.userId).roles = [] := by
        rw [List.isEmpty_iff] at hempty
        refine eq_nil_iff_forall_not_mem.mpr fun role hrole => ?_
        have hdesired : role ∉ s.desired := by
          intro hd
          have hin : role ∈ s.next := Settlement.mem_next.mpr (.inr hd)
          rw [hempty] at hin
          cases hin
        have hin := (hnext hdesired).mpr hrole
        rw [hempty] at hin
        cases hin
      rw [hhand, if_pos hempty, hnil]
    · have hsome : s.write = some row := hrow.symm.trans hsome
      rw [Settlement.write] at hsome
      split at hsome
      · cases hsome
      · rename_i hne
        cases hsome
        show (s.membership.map (·.grants)).getD [] =
          ((w.writeMembership p' pass.userId s).hand p' pass.userId).grants
        rw [hhand, if_neg hne, ← hcur.membership]
        cases hm : w.memberships p' pass.userId with
        | none => rw [hw.absent hm]; rfl
        | some row => exact hw.grants row hm
    · have hji : j ≠ i := by
        rintro rfl
        cases (update_self ..).symm.trans hother
        cases hphase'
      exact hw.unchanged j other s' ((hothers hji).symm.trans hother) hu hphase'
  · obtain ⟨hm, hh⟩ := @writeMembership_of_ne w p pass.userId s p' u' hpu
    refine (h p' u').onePass hm hh (congrFun (congrFun hgrants p') u') (fun j => hothers)
      (not_untracked hpass fun s' heq => ?_) fun other s' wrote hother hu hphase' => ?_
    · rw [hphase] at heq
      cases heq
    · cases (update_self ..).symm.trans hother
      cases hphase'
      exact absurd ⟨rfl, hu.symm⟩ hpu

/-- What the mapping grants is tracked. -/
theorem Sound.tracking {wrote : Bool} (hphase : pass.phase = .tracking p s wrote)
    (hok : wrote = false → (∀ j, ¬w.Untracked p pass.userId j) →
      w.Current p pass.userId s ∨ w.roles p pass.userId = (w.hand p pass.userId).roles) :
    Sound ((w.setGrants p pass.userId
      (if s.desired.isEmpty then none else some s.desired)).setPass i
        { pass with phase := .project }) := by
  intro p' u'
  set w' := (w.setGrants p pass.userId
    (if s.desired.isEmpty then none else some s.desired)).setPass i
      { pass with phase := .project } with hw'
  have hothers {j : PassId} (hj : j ≠ i) : w'.passes j = w.passes j := update_of_ne hj ..
  have hself : w'.passes i = some { pass with phase := .project } := update_self ..
  have hgrants : (w'.directoryGrants p' u').getD [] =
      if p' = p ∧ u' = pass.userId then s.desired else (w.directoryGrants p' u').getD [] := by
    rw [show w'.directoryGrants p' u' = _ from grants_setGrants]
    by_cases hpu : p' = p ∧ u' = pass.userId
    · rw [if_pos hpu, if_pos hpu]
      cases s.desired <;> rfl
    · rw [if_neg hpu, if_neg hpu]
  refine (h p' u').passes rfl rfl (fun hno role hrole => ?_)
    fun j other s' wrote' hother hu hphase' => ?_
  · rw [hgrants] at hrole
    by_cases hpu : p' = p ∧ u' = pass.userId
    · rw [if_pos hpu] at hrole
      obtain ⟨rfl, rfl⟩ := hpu
      have hw := h p' pass.userId
      cases wrote with
      | true => exact hw.written i pass s hpass rfl hphase role hrole
      | false =>
        have hbefore (j : PassId) : ¬w.Untracked p' pass.userId j := by
          rintro ⟨other, s', hother, hrest⟩
          have hji : j ≠ i := by
            rintro rfl
            cases hpass.symm.trans hother
            cases hphase.symm.trans hrest.2
          exact hno j ⟨other, s', (hothers hji).trans hother, hrest⟩
        rcases hok rfl hbefore with hcur | hhand
        · have hsame : role ∈ s.current ↔ role ∈ s.next :=
            Settlement.mem_next_of_unchanged (hw.unchanged i pass s hpass rfl hphase)
          rw [Settlement.current, ← hcur.membership] at hsame
          exact hsame.trans (mem_next_iff hw hbefore hcur hrole)
        · rw [hhand]
    · -- Another membership: who wrote it goes on as before.
      rw [if_neg hpu] at hrole
      refine (h p' u').tracked (fun j hj => hno j ?_) role hrole
      obtain ⟨other, s', hother, hu, hphase'⟩ := hj
      refine ⟨other, s', (hothers ?_).trans hother, hu, hphase'⟩
      rintro rfl
      cases hpass.symm.trans hother
      cases hphase.symm.trans hphase'
      exact hpu ⟨rfl, hu.symm⟩
  · have hji : j ≠ i := by
      rintro rfl
      cases hself.symm.trans hother
      cases hphase'
    exact .inl ⟨other, (hothers hji).symm.trans hother, hu, hphase'⟩

/-- A pass is lost. -/
theorem Sound.lose (hok : Careful w (.lose i)) : Sound (w.endPass i) := by
  intro p' u'
  have hothers {j : PassId} (hj : j ≠ i) : (w.endPass i).passes j = w.passes j :=
    update_of_ne hj ..
  have hself : (w.endPass i).passes i = none := update_self ..
  refine (h p' u').passes rfl rfl (fun hno role hrole => ?_)
    fun j other s' wrote' hother hu hphase' => ?_
  · by_cases hi : w.Untracked p' u' i
    · obtain ⟨other, s, hother, rfl, hphase⟩ := hi
      have hlost := hok other hother
      rw [hphase] at hlost
      exact (h p' other.userId).written i other s hother rfl hphase role fun hd =>
        hrole (hlost role hd)
    · refine (h p' u').tracked (fun j hj => hno j ?_) role hrole
      have hji : j ≠ i := by
        rintro rfl
        exact hi hj
      obtain ⟨other, s, hother, hrest⟩ := hj
      exact ⟨other, s, (hothers hji).trans hother, hrest⟩
  · have hji : j ≠ i := by
      rintro rfl
      cases hself.symm.trans hother
    exact .inl ⟨other, (hothers hji).symm.trans hother, hu, hphase'⟩

/-- A pass that writes nothing goes on. -/
theorem Sound.goOn {next : Pass} (hphase : ∀ p s, pass.phase ≠ .tracking p s true)
    (hnext : ∀ p s wrote, next.phase = .tracking p s wrote → wrote = false ∧ s.changed = false) :
    Sound (w.setPass i next) := fun p u =>
  (h p u).onePass rfl rfl rfl (fun _ hj => update_of_ne hj ..)
    (not_untracked hpass (hphase p)) fun other s wrote hother _ hphase' => by
      cases (update_self ..).symm.trans hother
      exact hnext p s wrote hphase'

/-- **The next statement of a pass.** -/
theorem Sound.proceed (hok : Careful w (.proceed i)) : Sound (w.proceed lower i pass) := by
  have hok := hok pass hpass
  unfold World.proceed
  cases hphase : pass.phase with
  | policies | tracked =>
    refine h.goOn hpass (fun p s heq => ?_) fun p s wrote heq => ?_
    · cases hphase.symm.trans heq
    · cases heq
  | project =>
    have hnot (p : ProjectId) (s : Settlement) : pass.phase ≠ .tracking p s true := by
      rw [hphase]
      exact fun heq => by cases heq
    cases hrest : pass.rest with
    | nil =>
      refine h.lose hpass fun other hother => ?_
      cases hpass.symm.trans hother
      rw [hphase]
      trivial
    | cons p rest =>
      refine h.goOn hpass hnot fun p' s wrote heq => ?_
      split at heq
      · cases heq
      · rename_i hchanged
        cases heq
        exact ⟨rfl, Bool.eq_false_iff.mpr hchanged⟩
  | writing p s =>
    rw [hphase] at hok
    exact h.writing hpass hphase hok.1 hok.2
  | tracking p s wrote =>
    rw [hphase] at hok
    refine h.tracking hpass hphase fun hwrote => ?_
    subst hwrote
    exact hok

end

/-- A membership set by hand, and no other. -/
theorem Sound.byHand (h : Sound w) (hrow : row = some hand ∨ row = none ∧ hand = ⟨[], []⟩) :
    Sound ((w.setMembership p u row).setHand p u hand) := by
  intro p' u'
  by_cases hpu : p' = p ∧ u' = u
  · have hm : ((w.setMembership p u row).setHand p u hand).memberships p' u' = row :=
      memberships_setMembership.trans (if_pos hpu)
    refine (h p' u').byHand rfl ?_
    rwa [hm, hand_setHand, if_pos hpu]
  · exact (h p' u').passes (memberships_setMembership.trans (if_neg hpu))
      (hand_setHand.trans (if_neg hpu)) ((h p' u').tracked ·)
      fun j other s wrote hother hu hphase => .inl ⟨other, hother, hu, hphase⟩

/-- Policies and projects are nothing to the memberships. -/
theorem Sound.policies {projects : Nat}
    {policies : ProjectId → Option (List DirectoryRoleMapping)} (h : Sound w) :
    Sound { w with projects, policies } := fun p u =>
  (h p u).passes rfl rfl ((h p u).tracked ·)
    fun _ other _ _ hother hu hphase => .inl ⟨other, hother, hu, hphase⟩

/-- **One step.** -/
theorem Sound.step (h : Sound w) (hok : Careful w action)
    (hs : step lower w action = some w') : Sound w' := by
  cases action with
  | project =>
    cases hs
    exact h.policies
  | setPolicy p mappings =>
    obtain ⟨-, hs⟩ := ite_none_right_eq_some.mp hs
    cases hs
    exact h.policies
  | grant p u roles grants =>
    obtain ⟨-, hs⟩ := ite_none_right_eq_some.mp hs
    cases hs
    exact h.byHand (.inl rfl)
  | redeem p u roles grants =>
    obtain ⟨-, hs⟩ := ite_none_right_eq_some.mp hs
    cases hm : w.memberships p u with
    | some row =>
      rw [hm] at hs
      cases hs
      exact h
    | none =>
      rw [hm] at hs
      cases hs
      exact h.byHand (.inl rfl)
  | revoke p u =>
    cases hs
    exact h.byHand (.inr ⟨rfl, rfl⟩)
  | begin i u groups =>
    dsimp only [DirectoryRoles.step] at hs
    cases hpass : w.passes i with
    | some pass =>
      rw [hpass] at hs
      cases hs
    | none =>
      rw [hpass] at hs
      cases hs
      refine fun p u' => (h p u').onePass rfl rfl rfl
        (fun _ hj => update_of_ne hj ..) ?_ fun other s wrote hother _ hphase => ?_
      · rintro ⟨other, s, hother, -⟩
        cases hpass.symm.trans hother
      · cases (update_self ..).symm.trans hother
        cases hphase
  | proceed i =>
    obtain ⟨pass, hpass, rfl⟩ := map_eq_some_iff.mp hs
    exact h.proceed hpass hok
  | lose i =>
    obtain ⟨pass, hpass, rfl⟩ := map_eq_some_iff.mp hs
    exact h.lose hpass hok

end Steps

variable {w : World}

/-! ## Whole runs -/

theorem sound_reach (h : Runs.Reach (step lower) Careful empty w) : Sound w :=
  h.invariant sound_empty fun _ _ _ hw => hw.step

variable {p : ProjectId} {pass : Pass} {ok : World → Action → Prop}

/-! ## A pass alone -/

section Alone

variable {lower : Group → Group} {w w' : World} {i : PassId} {u : UserId} {groups : List Group}

/-- The roles that the mapping gives to a member now. -/
def World.mapped (lower : Group → Group) (w : World) (groups : List Group) (p : ProjectId) :
    List Role :=
  mappedRoles lower (directoryMappings lower (w.policies p)) groups

/-- A pass has come by: what the mapping gives is tracked, and the member has it. -/
structure Reconciled (lower : Group → Group) (w : World) (u : UserId) (groups : List Group)
    (p : ProjectId) : Prop where
  tracked : ∀ role, role ∈ (w.directoryGrants p u).getD [] ↔ role ∈ w.mapped lower groups p
  roles : ∀ role ∈ w.mapped lower groups p, role ∈ w.roles p u

/-- How far a pass has come that read the mappings as they are. -/
def Progress (lower : Group → Group) (w : World) (pass : Pass) : Prop :=
  let read := pass.policies = fun p => directoryMappings lower (w.policies p)
  let done (p : ProjectId) := Reconciled lower w pass.userId pass.groups p
  match pass.phase with
  | .policies => True
  | .tracked => read
  | .project => read ∧ ∀ p < w.projects, p ∉ pass.rest → done p
  | .writing p s =>
    read ∧ s.desired = w.mapped lower pass.groups p ∧
      ∀ p' < w.projects, p' ∉ pass.rest → p' ≠ p → done p'
  | .tracking p s _ =>
    read ∧ s.desired = w.mapped lower pass.groups p ∧
      (∀ role ∈ s.desired, role ∈ w.roles p pass.userId) ∧
        ∀ p' < w.projects, p' ∉ pass.rest → p' ≠ p → done p'

/-- A pass for some groups is all there is, or it is over. -/
structure Alone (lower : Group → Group) (i : PassId) (u : UserId) (groups : List Group)
    (w : World) : Prop where
  others : ∀ j, j ≠ i → w.passes j = none
  user : ∀ pass, w.passes i = some pass → pass.userId = u ∧ pass.groups = groups
  progress : ∀ pass, w.passes i = some pass → Progress lower w pass
  ended : w.passes i = none → ∀ p < w.projects, Reconciled lower w u groups p

/-- Where neither the mapping nor the membership changed, a pass need not come by again. -/
theorem Reconciled.frame (h : Reconciled lower w u groups p) (hp : w'.policies = w.policies)
    (hg : w'.directoryGrants p u = w.directoryGrants p u)
    (hm : w'.memberships p u = w.memberships p u) : Reconciled lower w' u groups p := by
  have hmapped : w'.mapped lower groups p = w.mapped lower groups p := by
    rw [World.mapped, hp, World.mapped]
  have hroles : w'.roles p u = w.roles p u := by rw [World.roles, hm, World.roles]
  refine ⟨fun role => ?_, fun role hrole => ?_⟩
  · rw [hg, hmapped]
    exact h.tracked role
  · rw [hroles]
    exact h.roles role (hmapped ▸ hrole)

/-- The pass comes to its next phase. -/
theorem Alone.setPass {next : Pass} (h : Alone lower i u groups w)
    (hpasses : w'.passes = update w.passes i (some next))
    (huser : next.userId = u) (hgroups : next.groups = groups) (hnext : Progress lower w' next) :
    Alone lower i u groups w' := by
  have hself : w'.passes i = some next := hpasses ▸ update_self ..
  refine ⟨fun j hj => ?_, fun pass hpass => ?_, fun pass hpass => ?_, fun hnone => ?_⟩
  · rw [hpasses, update_of_ne hj]
    exact h.others j hj
  · cases hself.symm.trans hpass
    exact ⟨huser, hgroups⟩
  · cases hself.symm.trans hpass
    exact hnext
  · cases hself.symm.trans hnone

/-- What a pass does not go through has no mapping, and nothing tracked. -/
theorem reconciled_of_not_mem (hp : p < w.projects)
    (hread : pass.policies p = directoryMappings lower (w.policies p)) (h : p ∉ w.reconciled pass) :
    Reconciled lower w pass.userId pass.groups p := by
  rw [World.reconciled, mem_eraseDups, mem_append, not_or, mem_filter, mem_filter, mem_range] at h
  obtain ⟨hpolicies, htracked⟩ := h
  have hpolicies : directoryMappings lower (w.policies p) = [] := by
    simpa [hp, hread] using hpolicies
  have htracked : w.directoryGrants p pass.userId = none := by simpa [hp] using htracked
  have hmapped : w.mapped lower pass.groups p = [] := by
    rw [World.mapped, hpolicies]
    rfl
  refine ⟨fun role => ?_, fun role hrole => ?_⟩
  · rw [htracked, hmapped]
    exact Iff.rfl
  · rw [hmapped] at hrole
    cases hrole

/-- The pass comes to its next project. -/
theorem Alone.next {pass : Pass} {p : ProjectId} {rest : List ProjectId} {s : Settlement}
    (h : Alone lower i pass.userId pass.groups w)
    (hread : pass.policies = fun p => directoryMappings lower (w.policies p))
    (hdone : ∀ p' < w.projects, p' ∉ p :: rest → Reconciled lower w pass.userId pass.groups p')
    (hdesired : s.desired = w.mapped lower pass.groups p)
    (hmembership : s.membership = w.memberships p pass.userId) :
    Alone lower i pass.userId pass.groups (w.setPass i { pass with
      rest, phase := if s.changed then .writing p s else .tracking p s false }) := by
  have hrest (p' : ProjectId) (hp' : p' < w.projects) (hnot : p' ∉ rest) (hne : p' ≠ p) :
      Reconciled lower w pass.userId pass.groups p' :=
    hdone p' hp' fun hmem => (mem_cons.mp hmem).elim hne hnot
  by_cases hchanged : s.changed = true
  · rw [if_pos hchanged]
    exact h.setPass rfl rfl rfl ⟨hread, hdesired, fun p' hp' hnot hne =>
      (hrest p' hp' hnot hne).frame rfl rfl rfl⟩
  · rw [if_neg hchanged]
    refine h.setPass rfl rfl rfl ⟨hread, hdesired, fun role hrole => ?_,
      fun p' hp' hnot hne => (hrest p' hp' hnot hne).frame rfl rfl rfl⟩
    have hnext : role ∈ s.next := Settlement.mem_next.mpr (.inr hrole)
    have hcurrent : role ∈ s.current :=
      (Settlement.mem_next_of_unchanged (Bool.eq_false_iff.mpr hchanged)).mpr hnext
    rwa [Settlement.current, hmembership] at hcurrent

section

variable (h : Alone lower i pass.userId pass.groups w)
  (hread : pass.policies = fun p => directoryMappings lower (w.policies p))
  (hdesired : s.desired = w.mapped lower pass.groups p)
include h hread hdesired

theorem Alone.writing (hdone : ∀ p' < w.projects, p' ∉ pass.rest → p' ≠ p →
      Reconciled lower w pass.userId pass.groups p') :
    Alone lower i pass.userId pass.groups ((w.writeMembership p pass.userId s).setPass i
      { pass with phase := .tracking p s true }) := by
  obtain ⟨hpasses, hgrants⟩ := @writeMembership_frame w p pass.userId s
  obtain ⟨hpolicies, hprojects⟩ := @writeMembership_policies w p pass.userId s
  refine h.setPass (congrArg (update · _ _) hpasses) rfl rfl ⟨?_, ?_, fun role hrole => ?_,
    fun p' hp' hnot hne => ?_⟩
  · exact hread.trans (funext fun p' => by rw [← hpolicies]; rfl)
  · rw [hdesired, World.mapped, ← hpolicies]
    rfl
  · have hroles := (@writeMembership_roles w p pass.userId s).1
    have hin : role ∈ s.next := Settlement.mem_next.mpr (.inr hrole)
    rwa [← hroles] at hin
  · obtain ⟨hm, -⟩ := @writeMembership_of_ne w p pass.userId s p' pass.userId
      fun heq => hne heq.1
    have hp' : p' < w.projects := hprojects ▸ hp'
    exact (hdone p' hp' hnot hne).frame hpolicies (congrFun (congrFun hgrants p') _) hm

theorem Alone.tracking (hroles : ∀ role ∈ s.desired, role ∈ w.roles p pass.userId)
    (hdone : ∀ p' < w.projects, p' ∉ pass.rest → p' ≠ p →
      Reconciled lower w pass.userId pass.groups p') :
    Alone lower i pass.userId pass.groups ((w.setGrants p pass.userId
      (if s.desired.isEmpty then none else some s.desired)).setPass i
        { pass with phase := .project }) := by
  refine h.setPass rfl rfl rfl ⟨hread, fun p' hp' hnot => ?_⟩
  by_cases hpp : p' = p
  · subst hpp
    have hgrants : (w.setGrants p' pass.userId
        (if s.desired.isEmpty then none else some s.desired)).directoryGrants p' pass.userId =
          if s.desired.isEmpty then none else some s.desired :=
      grants_setGrants.trans (if_pos ⟨rfl, rfl⟩)
    refine ⟨fun role => ?_, fun role hrole => hroles role (hdesired ▸ hrole)⟩
    show role ∈ (World.directoryGrants _ p' pass.userId).getD [] ↔
      role ∈ w.mapped lower pass.groups p'
    rw [← hdesired, World.setPass, hgrants]
    cases s.desired <;> rfl
  · exact (hdone p' hp' hnot hpp).frame rfl
      (grants_setGrants.trans (if_neg fun heq => hpp heq.1)) rfl

end

/-- **A pass alone goes on**, and has come by one project more when it tracks it. -/
theorem Alone.proceed (h : Alone lower i u groups w) (hpass : w.passes i = some pass) :
    Alone lower i u groups (w.proceed lower i pass) := by
  obtain ⟨rfl, rfl⟩ := h.user pass hpass
  have hprogress := h.progress pass hpass
  unfold World.proceed
  cases hphase : pass.phase with
  | policies => exact h.setPass rfl rfl rfl (show _ = _ from rfl)
  | tracked =>
    rw [Progress, hphase] at hprogress
    refine h.setPass rfl rfl rfl ⟨hprogress, fun p hp hrest => ?_⟩
    have hdone := reconciled_of_not_mem hp (congrFun hprogress p) hrest
    exact hdone.frame rfl rfl rfl
  | project =>
    rw [Progress, hphase] at hprogress
    obtain ⟨hread, hdone⟩ := hprogress
    cases hrest : pass.rest with
    | nil =>
      rw [hrest] at hdone
      have hself : (w.endPass i).passes i = none := update_self ..
      refine ⟨fun j hj => (update_of_ne hj ..).trans (h.others j hj),
        fun other hother => ?_, fun other hother => ?_, fun _ p hp => ?_⟩
      · cases hself.symm.trans hother
      · cases hself.symm.trans hother
      · exact (hdone p hp not_mem_nil).frame rfl rfl rfl
    | cons p rest =>
      rw [hrest] at hdone
      refine h.next hread hdone ?_ rfl
      rw [hread]
      rfl
  | writing p s =>
    rw [Progress, hphase] at hprogress
    obtain ⟨hread, hdesired, hdone⟩ := hprogress
    exact h.writing hread hdesired hdone
  | tracking p s wrote =>
    rw [Progress, hphase] at hprogress
    obtain ⟨hread, hdesired, hroles, hdone⟩ := hprogress
    exact h.tracking hread hdesired hroles hdone

theorem Alone.reach (h : Alone lower i u groups w)
    (hr : Runs.Reach (step lower) (fun w action => ok w action ∧ action = .proceed i) w w') :
    Alone lower i u groups w' := by
  refine hr.invariant h fun w action w' halone hok hs => ?_
  obtain ⟨-, rfl⟩ := hok
  obtain ⟨pass, hpass, rfl⟩ := map_eq_some_iff.mp hs
  exact halone.proceed hpass

/-- **The union law after a pass alone.** -/
theorem union_of_careful (h : Runs.Reach (step lower) Careful empty w)
    (hquiet : ∀ j, w.passes j = none) (hc : Completes lower Careful w i u groups w') :
    ∀ p < w'.projects, w'.Union lower u groups p := by
  obtain ⟨w₁, hbegin, hruns, hended⟩ := hc
  have hsound : Sound w' :=
    sound_reach ((Runs.Reach.tail h (show Careful w (.begin i u groups) from trivial) hbegin).trans
      (hruns.mono fun _ _ hok => hok.1))
  rw [step, hquiet i] at hbegin
  cases hbegin
  have hfirst : Alone lower i u groups (w.setPass i { userId := u, groups }) := by
    have hself : (w.setPass i { userId := u, groups }).passes i =
      some { userId := u, groups } := update_self ..
    refine ⟨fun j hj => (update_of_ne hj ..).trans (hquiet j), fun pass hpass => ?_,
      fun pass hpass => ?_, fun hnone => ?_⟩
    · cases hself.symm.trans hpass
      exact ⟨rfl, rfl⟩
    · cases hself.symm.trans hpass
      trivial
    · cases hself.symm.trans hnone
  have halone := hfirst.reach hruns
  have hnone (j : PassId) : w'.passes j = none := by
    by_cases hj : j = i
    · rw [hj, hended]
    · exact halone.others j hj
  intro p hp
  have hdone := halone.ended hended p hp
  have hsettled := hsound p u
  refine ⟨fun role => ?_, hsettled.grants⟩
  by_cases hmapped : role ∈ w'.mapped lower groups p
  · exact ⟨fun _ => .inr hmapped, fun _ => hdone.roles role hmapped⟩
  · -- Nothing of the mapping: the rest is what was granted by hand.
    have htracked := hsettled.tracked
      (fun j ⟨pass, _, hpass, _⟩ => by cases (hnone j).symm.trans hpass) role
      fun htracked => hmapped ((hdone.tracked role).mp htracked)
    rw [htracked]
    exact ⟨.inl, fun hor => hor.resolve_right hmapped⟩

end Alone

/-! ## Runs -/

instance (w : World) (p : ProjectId) (u : UserId) (s : Settlement) :
    Decidable (w.Current p u s) :=
  decidable_of_iff (w.memberships p u = s.membership ∧
      (w.directoryGrants p u).getD [] = s.previous ∧
        ∀ role ∈ s.previous, role ∉ s.desired → role ∉ (w.hand p u).roles)
    ⟨fun ⟨hm, ht, hh⟩ => ⟨hm, ht, hh⟩, fun h => ⟨h.membership, h.tracked, h.byHand⟩⟩

/-- One pass after the other, each of which takes away nothing that was granted by hand. -/
def Lone (w : World) : Action → Bool
  | .begin i _ _ => i == 0
  | .proceed i =>
    i == 0 && (w.passes 0).all fun pass =>
      match pass.phase with
      | .writing p s => w.Current p pass.userId s
      | .tracking p s false => w.Current p pass.userId s
      | _ => true
  | .lose _ => false
  | _ => true

/-- No pass is under way but the first. -/
def World.Only (w : World) : Prop := ∀ j, j ≠ 0 → w.passes j = none

variable {w' : World}

theorem World.Only.update {next : Option Pass} (h : w.Only)
    (hw : w'.passes = update w.passes 0 next) : w'.Only := fun j hj => by
  rw [hw, update_of_ne hj]
  exact h j hj

/-- A statement changes nothing of another pass. -/
theorem passes_proceed {lower : Group → Group} {w : World} {i : PassId} {pass : Pass} :
    ∃ next, (w.proceed lower i pass).passes = update w.passes i next := by
  unfold World.proceed
  cases pass.phase with
  | policies => exact ⟨_, rfl⟩
  | tracked => exact ⟨_, rfl⟩
  | project =>
    cases pass.rest with
    | nil => exact ⟨none, rfl⟩
    | cons p rest => exact ⟨_, rfl⟩
  | writing p s =>
    have hframe := (@writeMembership_frame w p pass.userId s).1
    exact ⟨_, congrArg (update · i _) hframe⟩
  | tracking p s wrote => exact ⟨_, rfl⟩

theorem World.Only.step (h : w.Only) (hok : Lone w action = true)
    (hs : step lower w action = some w') : w'.Only := by
  cases action with
  | project | revoke p u =>
    cases hs
    exact h
  | setPolicy p mappings | grant p u roles grants =>
    obtain ⟨-, hs⟩ := ite_none_right_eq_some.mp hs
    cases hs
    exact h
  | redeem p u roles grants =>
    obtain ⟨-, hs⟩ := ite_none_right_eq_some.mp hs
    cases hm : w.memberships p u with
    | some row | none =>
      rw [hm] at hs
      cases hs
      exact h
  | begin i u groups =>
    obtain rfl := eq_of_beq hok
    dsimp only [DirectoryRoles.step] at hs
    split at hs
    · cases hs
      exact h.update rfl
    · cases hs
  | proceed i =>
    obtain rfl := eq_of_beq ((Bool.and_eq_true _ _).mp hok).1
    obtain ⟨pass, hpass, rfl⟩ := map_eq_some_iff.mp hs
    obtain ⟨next, hnext⟩ := @passes_proceed lower w 0 pass
    exact h.update hnext
  | lose i => cases hok

theorem World.Only.careful (h : w.Only) (hok : Lone w action = true) : Careful w action := by
  cases action with
  | proceed i =>
    obtain ⟨hi, hcheck⟩ := (Bool.and_eq_true _ _).mp hok
    obtain rfl := eq_of_beq hi
    intro pass hpass
    rw [hpass, all_some] at hcheck
    cases hphase : pass.phase with
    | policies => trivial
    | tracked => trivial
    | project => trivial
    | writing p s =>
      rw [hphase] at hcheck
      refine ⟨of_decide_eq_true hcheck, fun j hj => ?_⟩
      obtain ⟨other, s', hother, -, hphase'⟩ := hj
      by_cases hj : j = 0
      · subst hj
        cases hpass.symm.trans hother
        cases hphase.symm.trans hphase'
      · cases (h j hj).symm.trans hother
    | tracking p s wrote =>
      cases wrote with
      | true => trivial
      | false =>
        rw [hphase] at hcheck
        exact fun _ => .inl (of_decide_eq_true hcheck)
  | lose i => cases hok
  | project => trivial
  | setPolicy p mappings => trivial
  | grant p u roles grants => trivial
  | redeem p u roles grants => trivial
  | revoke p u => trivial
  | begin i u groups => trivial

theorem Lone.reach (h : w.Only)
    (hr : Runs.Reach (step lower) (fun w action => Lone w action = true ∧ ok w action) w w') :
    w'.Only ∧ Runs.Reach (step lower) (fun w action => Careful w action ∧ ok w action) w w' := by
  induction hr with
  | init => exact ⟨h, .init⟩
  | tail _ hok hs ih => exact ⟨ih.1.step hok.1 hs, .tail ih.2 ⟨ih.1.careful hok.1, hok.2⟩ hs⟩

/-- The roles of the mapping, and the groups that the directory has a user in. -/
def mapping : List DirectoryRoleMapping := [⟨"engineering", [7]⟩]

/-- A role is granted by hand, and a first pass goes by. -/
def joined (role : Role) (grants : Grants) (statements : Nat) : List Action :=
  [.project, .setPolicy 0 mapping, .grant 0 0 [role] grants, .begin 0 0 ["engineering"]] ++
    List.replicate statements (.proceed 0)

/-- A second pass, for a user who is in no group. -/
def leaves (ok : World → Action → Bool) (w : World) : Option World :=
  (step id w (.begin 0 0 [])).bind fun w₁ =>
    Runs.execOk (step id) (fun w action => ok w action = true ∧ action = .proceed 0) w₁
      (List.replicate 6 (.proceed 0))

/-- What a run comes to: the roles, and whether the pass is over. -/
def World.shows (w : World) : List Role × Bool := (w.roles 0 0, (w.passes 0).isNone)

/-- **The member leaves the group**, and keeps what was granted by hand. -/
theorem union_of_careful_left : ∃ w w', Runs.Reach (step id) Careful empty w ∧
    w.roles 0 0 = [3, 7] ∧ Completes id Careful w 0 0 [] w' ∧ w'.roles 0 0 = [3] ∧
      w'.Union id 0 [] 0 := by
  have hrun : (Runs.execOk (step id) (fun w action => Lone w action = true ∧ True) empty
      (joined 3 [("region", ["eu"])] 6)).bind (fun w => (leaves Lone w).map fun w' =>
        (w.shows, w'.shows, w'.projects)) = some (([3, 7], true), ([3], true), 1) := by
    decide +kernel
  obtain ⟨w, hw, hrest⟩ := bind_eq_some_iff.mp hrun
  obtain ⟨w', hw', hshows⟩ := map_eq_some_iff.mp hrest
  obtain ⟨hbefore, hshows⟩ := Prod.mk.inj hshows
  obtain ⟨hafter, hprojects⟩ := Prod.mk.inj hshows
  obtain ⟨hroles, hended⟩ := Prod.mk.inj hbefore
  obtain ⟨hroles', hended'⟩ := Prod.mk.inj hafter
  obtain ⟨w₁, hbegin, hstatements⟩ := bind_eq_some_iff.mp hw'
  have hempty : empty.Only := fun _ _ => rfl
  obtain ⟨honly, hreach⟩ := Lone.reach hempty (Runs.reach_of_execOk hw)
  obtain ⟨-, hreach'⟩ := Lone.reach (honly.step rfl hbegin) (Runs.reach_of_execOk hstatements)
  have hcareful := hreach.mono fun _ _ hok => hok.1
  have hquiet (j : PassId) : w.passes j = none := by
    by_cases hj : j = 0
    · rw [hj]
      exact isNone_iff_eq_none.mp hended
    · exact honly j hj
  have hcompletes : Completes id Careful w 0 0 [] w' :=
    ⟨w₁, hbegin, hreach', isNone_iff_eq_none.mp hended'⟩
  exact ⟨w, w', hcareful, hroles, hcompletes, hroles',
    union_of_careful hcareful hquiet hcompletes 0 (by rw [hprojects]; exact Nat.zero_lt_one)⟩

/-- The same role was granted by hand, and goes with the group. -/
theorem grant_not_kept : ¬∀ w w', Runs.Reach (step id) Runs.anyEvent empty w →
    (∀ j, w.passes j = none) → Completes id Runs.anyEvent w 0 0 [] w' →
      ∀ p < w'.projects, w'.Union id 0 [] p := by
  intro hclaim
  have hrun : (Runs.execOk (step id) (fun w action => Lone w action = true ∧ True) empty
      (joined 7 [] 5)).bind (fun w => (leaves (fun _ _ => true) w).map fun w' =>
        (w.shows, w'.shows, (w'.hand 0 0).roles, w'.projects)) =
          some (([7], true), ([], true), [7], 1) := by
    decide +kernel
  obtain ⟨w, hw, hrest⟩ := bind_eq_some_iff.mp hrun
  obtain ⟨w', hw', hshows⟩ := map_eq_some_iff.mp hrest
  obtain ⟨hbefore, hshows⟩ := Prod.mk.inj hshows
  obtain ⟨hafter, hshows⟩ := Prod.mk.inj hshows
  obtain ⟨hhand, hprojects⟩ := Prod.mk.inj hshows
  obtain ⟨hroles', hended'⟩ := Prod.mk.inj hafter
  obtain ⟨w₁, hbegin, hstatements⟩ := bind_eq_some_iff.mp hw'
  have hempty : empty.Only := fun _ _ => rfl
  obtain ⟨honly, hreach⟩ := Lone.reach hempty (Runs.reach_of_execOk hw)
  have hquiet (j : PassId) : w.passes j = none := by
    by_cases hj : j = 0
    · rw [hj]
      exact isNone_iff_eq_none.mp (Prod.mk.inj hbefore).2
    · exact honly j hj
  have hstatements := (Runs.reach_of_execOk hstatements).mono fun _ _ hok =>
    And.intro trivial hok.2
  have hunion := hclaim w w' (hreach.mono fun _ _ _ => trivial) hquiet
    ⟨w₁, hbegin, hstatements, isNone_iff_eq_none.mp hended'⟩ 0
    (by rw [hprojects]; exact Nat.zero_lt_one)
  have hrole : 7 ∈ w'.roles 0 0 := (hunion.roles 7).mpr (.inl (by rw [hhand]; decide))
  rw [hroles'] at hrole
  cases hrole

end Catamorphic.Identity.DirectoryRoles
