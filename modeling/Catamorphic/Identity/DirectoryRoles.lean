import Mathlib.Logic.Function.Basic
import Catamorphic.Lib.Runs

/-!
# Roles from the directory

A project maps groups of the directory to roles. A reconcile pass makes the roles that a user
has from the mapping match their groups: it reads the mappings and the roles it tracks, and then,
project by project, the membership, which it writes before it tracks what it granted. Invitations
and managers write the same role list. Every statement is a step, and a pass may be lost between
two of them.
-/

namespace Catamorphic.Identity.DirectoryRoles

open Function

abbrev UserId := Nat
abbrev ProjectId := Nat
abbrev Role := Nat
abbrev Group := String
abbrev PassId := Nat

/-- The values of a role's parameters. -/
abbrev Grants := List (String × List String)

/-- A row of `memberships`. -/
structure Membership where
  roles : List Role
  grants : Grants
  deriving DecidableEq

structure DirectoryRoleMapping where
  group : Group
  roles : List Role
  deriving DecidableEq

/-- What the mapping and the membership make of one project. -/
structure Settlement where
  /-- The roles that the mapping granted before. -/
  previous : List Role
  desired : List Role
  membership : Option Membership
  deriving DecidableEq

/-- Where a pass is. -/
inductive Phase
  | policies
  | tracked
  /-- It comes to the next project, or ends. -/
  | project
  /-- It has read the membership, and writes it. -/
  | writing (projectId : ProjectId) (settlement : Settlement)
  /-- It tracks what the mapping grants now; `wrote` when it wrote the membership. -/
  | tracking (projectId : ProjectId) (settlement : Settlement) (wrote : Bool)
  deriving DecidableEq

structure Pass where
  userId : UserId
  groups : List Group
  /-- The mappings as the pass read them. -/
  policies : ProjectId → List DirectoryRoleMapping := fun _ => []
  /-- The tracked roles as it read them. -/
  grants : ProjectId → List Role := fun _ => []
  rest : List ProjectId := []
  phase : Phase := .policies

structure World where
  /-- How many projects there are. -/
  projects : Nat
  /-- `directory_roles` of a project's admission policy. -/
  policies : ProjectId → Option (List DirectoryRoleMapping)
  memberships : ProjectId → UserId → Option Membership
  /-- `work_directory_grants` -/
  directoryGrants : ProjectId → UserId → Option (List Role)
  passes : PassId → Option Pass
  /-- What invitations and managers granted. -/
  hand : ProjectId → UserId → Membership

def empty : World where
  projects := 0
  policies := fun _ => none
  memberships := fun _ _ => none
  directoryGrants := fun _ _ => none
  passes := fun _ => none
  hand := fun _ _ => ⟨[], []⟩

/-! ## Reconciling -/

section Reconcile

variable (lower : Group → Group)

/-- `directoryMappings` -/
def directoryMappings (mappings : Option (List DirectoryRoleMapping)) : List DirectoryRoleMapping :=
  ((mappings.getD []).filter fun mapping => !mapping.roles.isEmpty).map fun mapping =>
    { mapping with group := lower mapping.group }

/-- The roles that a mapping gives to the members of some groups. -/
def mappedRoles (mappings : List DirectoryRoleMapping) (groups : List Group) : List Role :=
  ((mappings.filter fun mapping => (groups.map lower).contains mapping.group).flatMap
    (·.roles)).eraseDups

end Reconcile

/-- The roles that the mapping leaves alone. -/
def Settlement.kept (s : Settlement) : List Role :=
  ((s.membership.map (·.roles)).getD []).filter fun role => !s.previous.contains role

def Settlement.next (s : Settlement) : List Role := (s.kept ++ s.desired).eraseDups

def Settlement.changed (s : Settlement) : Bool :=
  let current := (s.membership.map (·.roles)).getD []
  s.next.length != current.length || s.next.any fun role => !current.contains role

/-- The membership that it writes: none when no role is left. -/
def Settlement.write (s : Settlement) : Option Membership :=
  if s.next.isEmpty then none
  else some { roles := s.next, grants := (s.membership.map (·.grants)).getD [] }

/-! ## Updates -/

def World.setPass (w : World) (i : PassId) (pass : Pass) : World :=
  { w with passes := update w.passes i (some pass) }

def World.endPass (w : World) (i : PassId) : World :=
  { w with passes := update w.passes i none }

def World.setMembership (w : World) (p : ProjectId) (u : UserId) (row : Option Membership) :
    World :=
  { w with memberships := update w.memberships p (update (w.memberships p) u row) }

def World.setHand (w : World) (p : ProjectId) (u : UserId) (hand : Membership) : World :=
  { w with hand := update w.hand p (update (w.hand p) u hand) }

def World.setGrants (w : World) (p : ProjectId) (u : UserId) (roles : Option (List Role)) : World :=
  { w with
    directoryGrants :=
      update w.directoryGrants p (update (w.directoryGrants p) u roles) }

/-- The membership as a pass leaves it: with the last role its grants go. -/
def World.writeMembership (w : World) (p : ProjectId) (u : UserId) (s : Settlement) : World :=
  match s.write with
  | some row => w.setMembership p u (some row)
  | none => (w.setMembership p u none).setHand p u { w.hand p u with grants := [] }

/-! ## Steps -/

/-- The projects that a pass goes through: those with a mapping, and those it tracks. -/
def World.reconciled (w : World) (pass : Pass) : List ProjectId :=
  (((List.range w.projects).filter fun p => !(pass.policies p).isEmpty) ++
    (List.range w.projects).filter fun p => (w.directoryGrants p pass.userId).isSome).eraseDups

/-- The next statement of `reconcileDirectoryRoles`. -/
def World.proceed (lower : Group → Group) (w : World) (i : PassId) (pass : Pass) : World :=
  match pass.phase with
  | .policies =>
    w.setPass i { pass with
      policies := fun p => directoryMappings lower (w.policies p)
      phase := .tracked }
  | .tracked =>
    w.setPass i { pass with
      grants := fun p => (w.directoryGrants p pass.userId).getD []
      rest := w.reconciled pass
      phase := .project }
  | .project =>
    match pass.rest with
    | [] => w.endPass i
    | p :: rest =>
      let settlement : Settlement := {
        previous := pass.grants p
        desired := mappedRoles lower (pass.policies p) pass.groups
        membership := w.memberships p pass.userId }
      w.setPass i { pass with
        rest
        phase := if settlement.changed then .writing p settlement
          else .tracking p settlement false }
  | .writing p settlement =>
    (w.writeMembership p pass.userId settlement).setPass i
      { pass with phase := .tracking p settlement true }
  | .tracking p settlement _ =>
    (w.setGrants p pass.userId
      (if settlement.desired.isEmpty then none else some settlement.desired)).setPass i
        { pass with phase := .project }

inductive Action
  | project
  | setPolicy (p : ProjectId) (mappings : List DirectoryRoleMapping)
  /-- `grant`, by a manager or by who joins. -/
  | grant (p : ProjectId) (u : UserId) (roles : List Role) (grants : Grants)
  /-- `redeemInvitation` or an approved request: a membership that is there stays. -/
  | redeem (p : ProjectId) (u : UserId) (roles : List Role) (grants : Grants)
  | revoke (p : ProjectId) (u : UserId)
  /-- The directory was asked for the user's groups, and a pass begins. -/
  | begin (i : PassId) (u : UserId) (groups : List Group)
  | proceed (i : PassId)
  /-- The process of a pass stops. -/
  | lose (i : PassId)
  deriving DecidableEq

def step (lower : Group → Group) (w : World) : Action → Option World
  | .project => some { w with projects := w.projects + 1 }
  | .setPolicy p mappings =>
    if p < w.projects then
      some { w with policies := update w.policies p (some mappings) }
    else none
  | .grant p u roles grants =>
    if p < w.projects then
      some ((w.setMembership p u (some ⟨roles.eraseDups, grants⟩)).setHand p u
        ⟨roles.eraseDups, grants⟩)
    else none
  | .redeem p u roles grants =>
    if p < w.projects then
      match w.memberships p u with
      | some _ => some w
      | none => some ((w.setMembership p u (some ⟨roles, grants⟩)).setHand p u ⟨roles, grants⟩)
    else none
  | .revoke p u => some ((w.setMembership p u none).setHand p u ⟨[], []⟩)
  | .begin i u groups =>
    match w.passes i with
    | none => some (w.setPass i { userId := u, groups })
    | some _ => none
  | .proceed i => (w.passes i).map fun pass => w.proceed lower i pass
  | .lose i => (w.passes i).map fun _ => w.endPass i

/-! ## The union of what is granted -/

/-- The roles of a member. -/
def World.roles (w : World) (p : ProjectId) (u : UserId) : List Role :=
  ((w.memberships p u).map (·.roles)).getD []

/-- **The union law**: a member has the roles granted by hand and those mapped from their groups,
and the grants set by hand. -/
structure World.Union (lower : Group → Group) (w : World) (u : UserId) (groups : List Group)
    (p : ProjectId) : Prop where
  roles : ∀ role, role ∈ w.roles p u ↔ role ∈ (w.hand p u).roles ∨
    role ∈ mappedRoles lower (directoryMappings lower (w.policies p)) groups
  grants : ∀ row, w.memberships p u = some row → row.grants = (w.hand p u).grants

/-- A pass begins and goes on alone until it ends. -/
def Completes (lower : Group → Group) (ok : World → Action → Prop) (w : World) (i : PassId)
    (u : UserId) (groups : List Group) (w' : World) : Prop :=
  ∃ w₁, step lower w (.begin i u groups) = some w₁ ∧
    Runs.Reach (step lower) (fun w action => ok w action ∧ action = .proceed i) w₁ w' ∧
      w'.passes i = none

/-- Some other pass wrote the membership and has not tracked it yet. -/
def World.Untracked (w : World) (p : ProjectId) (u : UserId) (i : PassId) : Prop :=
  ∃ pass settlement, w.passes i = some pass ∧ pass.userId = u ∧
    pass.phase = .tracking p settlement true

/-- What a pass read of a project is still so, and no role that the mapping takes away was also
granted by hand. -/
structure World.Current (w : World) (p : ProjectId) (u : UserId) (s : Settlement) : Prop where
  membership : w.memberships p u = s.membership
  tracked : (w.directoryGrants p u).getD [] = s.previous
  byHand : ∀ role ∈ s.previous, role ∉ s.desired → role ∉ (w.hand p u).roles

/-- **What a step must meet.** A pass writes a membership, or lets it be, as it read it, while no
other pass is between its two writes there; and none is lost between the two after it granted a
role that is not tracked. -/
def Careful (w : World) : Action → Prop
  | .proceed i =>
    ∀ pass, w.passes i = some pass →
      match pass.phase with
      | .writing p s => w.Current p pass.userId s ∧ ∀ j, ¬w.Untracked p pass.userId j
      | .tracking p s false =>
        (∀ j, ¬w.Untracked p pass.userId j) →
          -- A membership that was set by hand since has nothing of the mapping.
          w.Current p pass.userId s ∨ w.roles p pass.userId = (w.hand p pass.userId).roles
      | _ => True
  | .lose i =>
    ∀ pass, w.passes i = some pass →
      match pass.phase with
      | .tracking p s true => ∀ role ∈ s.desired, role ∈ (w.directoryGrants p pass.userId).getD []
      | _ => True
  | _ => True

end Catamorphic.Identity.DirectoryRoles
