import Catamorphic.Identity.TokenFamilies

/-!
# A revoked family takes no grant in

A refresh reads its family once more after the authorization server answered it, and records
the new pair in later steps. A family that is revoked between them has the pair recorded after
its grants were listed for deletion. A disabled account is signed out in steps too, and a
sign-in that enables it between them finds what was there before. In a run without these two
orders of steps the claim of each token, the second look at the family and the signing out hold
together.
-/

namespace Catamorphic.Identity.TokenFamilies

open Function List Option

/-- The family that a grant past its check is to be recorded in. -/
def Call.recordsIn : Call → Option FamilyId
  | .superseding _ _ _ family _ => some family
  | .recording _ _ _ family => some family
  | _ => none

/-- A grant waits to be recorded in one of these families, and the family is not revoked. -/
def World.waits (w : World) (which : FamilyId → Family → Bool) : Bool :=
  (List.range w.nextCall).any fun id => (w.calls id).any fun call =>
    call.recordsIn.any fun family => (w.families family).any fun row =>
      which family row && row.revoked.isNone

/-- What must not happen: a family is revoked while a grant waits to be recorded in it, but by a
disable that signs the account out after it; an account is enabled before it was signed out. -/
def Action.keepsFamilies (w : World) : Action → Bool
  | .proceed id answer =>
    match w.calls id with
    | some (.revoking family _) => !w.waits fun id _ => id = family
    | some (.revokingFamilies user _) =>
      w.owed user ≠ .nothing || !w.waits fun _ family => family.user = user
    | some (.admitting _ user _ _ _) => !answer || w.owed user = .nothing
    | _ => true
  | _ => true

variable {w w' : World} {policy : Policy}

/-! ## What holds of grants -/

/-- Where the grant is there, it stems from a sign-in after the last disable, or the account is
still to be signed out. -/
def World.Current (w : World) (grant : GrantId) : Prop :=
  grant < w.nextGrant ∧ ∀ row, w.grants grant = some row →
    w.signIn grant = some (w.disables row.user) ∨ w.owed row.user ≠ .nothing

/-- A grant of a revoked family goes with the signing out. -/
def World.Leaves (w : World) (revoked : Bool) (grant : GrantId) : Prop :=
  revoked = true → ∀ row, w.grants grant = some row → w.owed row.user ≠ .nothing

/-- The token is recorded in a family of the user. -/
def World.InFamily (w : World) (token : Token) (family : FamilyId) (user : UserId) : Prop :=
  (∃ row, w.tokens token = some row ∧ row.family = family) ∧
    ∃ row, w.families family = some row ∧ row.user = user

/-- A disable since the account was found active revokes the family. -/
def World.Admitted (w : World) (family : FamilyId) (user : UserId) : Prop :=
  w.owed user ≠ .nothing → w.isRevoked family = true ∨ w.owed user = .revocation

/-- What is issued for the token is from the current sign-in, or its family is revoked. -/
def World.Issuable (w : World) (family : FamilyId) (user : UserId) (signIn : Option Nat) : Prop :=
  signIn = some (w.disables user) ∨ w.isRevoked family = true ∨ w.owed user = .revocation

/-- A refresh token belongs with no other grant. -/
def World.Alone (w : World) (grant : GrantId) (refresh : Option Token) : Prop :=
  ∀ token, refresh = some token → token < w.nextToken ∧
    ∀ id row, w.grants id = some row → row.refresh = some token → id = grant

def World.Belongs (w : World) (grant : GrantId) (user : UserId) (refresh : Option Token) : Prop :=
  (∀ row, w.grants grant = some row → row.user = user ∧ row.refresh = refresh) ∧
    w.Alone grant refresh

/-- What a call at its next step relies on. -/
def World.Holds (w : World) : Call → Prop
  | .active token family user => w.InFamily token family user
  | .standing token family user => w.InFamily token family user ∧ w.Admitted family user
  | .claiming token family => ∃ user, w.InFamily token family user ∧ w.Admitted family user
  | .exchanging token => ∃ family user, w.InFamily token family user ∧ w.Admitted family user
  | .issuing token user _ signIn =>
    ∃ family, w.InFamily token family user ∧ w.Issuable family user signIn
  | .looking none grant refresh =>
    grant < w.nextGrant ∧ (∀ row, w.grants grant = some row → row.refresh = refresh) ∧
      w.Alone grant refresh
  | .looking (some previous) grant refresh =>
    grant < w.nextGrant ∧ refresh.isSome = true ∧ ∃ family user,
      w.InFamily previous family user ∧ w.Belongs grant user refresh ∧
        ((w.grants grant).isSome = true → w.Issuable family user (w.signIn grant))
  | .rereading previous grant refresh =>
    grant < w.nextGrant ∧ ∃ family user,
      w.InFamily previous family user ∧ w.Belongs grant user (some refresh) ∧
        ((w.grants grant).isSome = true → w.Issuable family user (w.signIn grant))
  | .superseding _ grant refresh family _ =>
    w.Current grant ∧ w.Leaves (w.isRevoked family) grant ∧
      ∃ row, w.families family = some row ∧ w.Belongs grant row.user (some refresh)
  | .admitting grant user _ refresh _ => grant < w.nextGrant ∧ w.Belongs grant user refresh
  | .creating grant user _ refresh _ => w.Current grant ∧ w.Belongs grant user (some refresh)
  | .recording _ grant refresh family =>
    w.Current grant ∧ w.Leaves (w.isRevoked family) grant ∧
      ∃ row, w.families family = some row ∧ w.Belongs grant row.user (some refresh)
  | _ => True

/-- A recorded token's row. -/
def World.RowHolds (w : World) (token : Token) (row : RefreshToken) : Prop :=
  w.Current row.grant ∧ ∃ family, w.families row.family = some family ∧
    w.Belongs row.grant family.user (some token)

structure Sound (w : World) : Prop where
  families_lt : ∀ id family, w.families id = some family → id < w.nextFamily
  grants_lt : ∀ id grant, w.grants id = some grant → id < w.nextGrant
  refresh_lt : ∀ id grant token, w.grants id = some grant → grant.refresh = some token →
    token < w.nextToken
  calls_lt : ∀ id call, w.calls id = some call → id < w.nextCall
  rows : ∀ token row, w.tokens token = some row → w.RowHolds token row
  answered : ∀ grant ∈ w.answered, w.Current grant
  recorded : ∀ entry ∈ w.recorded, entry.grant < w.nextGrant ∧ w.Leaves entry.late entry.grant
  owed : ∀ user, w.owed user ≠ .nothing → w.disabled user = true
  holds : ∀ id call, w.calls id = some call → w.Holds call

/-! ## What the steps keep -/

/-- What a disable and its steps do to one account, and what every other step does. -/
inductive Owes (w w' : World) (user : UserId) : Prop
  | same (hdisables : w'.disables user = w.disables user) (howed : w'.owed user = w.owed user)
  | disabled (howed : w'.owed user = .revocation)
  | revoked (hdisables : w'.disables user = w.disables user) (howed : w'.owed user = .signOut)
      (hfamilies : ∀ id family, w'.families id = some family → family.user = user →
        family.revoked.isSome = true)
  | signedOut (hdisables : w'.disables user = w.disables user) (howed : w.owed user = .signOut)
      (hgrants : ∀ id grant, w'.grants id = some grant → grant.user ≠ user)

structure Keeps (w w' : World) : Prop where
  tokens : ∀ token row, w.tokens token = some row → ∃ row', w'.tokens token = some row' ∧
    row'.family = row.family
  families : ∀ id family, w.families id = some family → ∃ family', w'.families id = some family' ∧
    family'.user = family.user ∧ (family.revoked.isSome = true → family'.revoked.isSome = true)
  /-- A new grant has a new refresh token. -/
  grants : ∀ id grant, w'.grants id = some grant → w.grants id = some grant ∨
    w.nextGrant ≤ id ∧ ∀ token, grant.refresh = some token → w.nextToken ≤ token
  nextGrant : w.nextGrant ≤ w'.nextGrant
  nextToken : w.nextToken ≤ w'.nextToken
  signIn : ∀ id grant, id < w.nextGrant → w'.grants id = some grant →
    w'.signIn id = w.signIn id ∨ w'.signIn id = some (w'.disables grant.user)
  owes : ∀ user, Owes w w' user

/-- No family that a grant is to be recorded in is revoked, but of an account to be signed out. -/
def Spares (w w' : World) : Prop :=
  ∀ id call family, w.calls id = some call → call.recordsIn = some family →
    w'.isRevoked family = true → w.isRevoked family = true ∨
      ∀ row, w'.families family = some row → w'.owed row.user ≠ .nothing

variable {family : FamilyId}

theorem isRevoked_iff : w.isRevoked family = true ↔
    ∃ row, w.families family = some row ∧ row.revoked.isSome = true := by
  rw [World.isRevoked, Option.any_eq_true]

theorem Keeps.isRevoked (h : Keeps w w') (hrevoked : w.isRevoked family = true) :
    w'.isRevoked family = true := by
  obtain ⟨row, hrow, hrevoked⟩ := isRevoked_iff.mp hrevoked
  obtain ⟨row', hrow', -, hstays⟩ := h.families family row hrow
  exact isRevoked_iff.mpr ⟨row', hrow', hstays hrevoked⟩

theorem Keeps.grant (h : Keeps w w') {id : GrantId} {grant : Grant} (hlt : id < w.nextGrant)
    (hgrant : w'.grants id = some grant) : w.grants id = some grant :=
  (h.grants id grant hgrant).resolve_right fun hnew => absurd hlt (Nat.not_lt.mpr hnew.1)

variable {token : Token} {user : UserId}

theorem Keeps.inFamily (h : Keeps w w') (hin : w.InFamily token family user) :
    w'.InFamily token family user := by
  obtain ⟨⟨row, hrow, hof⟩, familyRow, hfamily, huser⟩ := hin
  obtain ⟨row', hrow', hof'⟩ := h.tokens token row hrow
  obtain ⟨familyRow', hfamily', huser', -⟩ := h.families family familyRow hfamily
  exact ⟨⟨row', hrow', hof'.trans hof⟩, familyRow', hfamily', huser'.trans huser⟩

variable {grant : GrantId}

theorem Keeps.current (h : Keeps w w') (hcurrent : w.Current grant) : w'.Current grant := by
  obtain ⟨hlt, hcurrent⟩ := hcurrent
  refine ⟨Nat.lt_of_lt_of_le hlt h.nextGrant, fun row hrow => ?_⟩
  rcases h.signIn grant row hlt hrow with hsign | hsign
  · rw [hsign]
    have hold := hcurrent row (h.grant hlt hrow)
    cases h.owes row.user with
    | same hdisables howed => rwa [hdisables, howed]
    | disabled howed | revoked _ howed => exact .inr (by rw [howed]; nofun)
    | signedOut _ _ hgrants => exact absurd rfl (hgrants grant row hrow)
  · exact .inl hsign

theorem Keeps.leaves (h : Keeps w w') {revoked revoked' : Bool} (hlt : grant < w.nextGrant)
    (hleaves : w.Leaves revoked grant) (hnew : revoked' = true → revoked = true ∨
      ∀ row, w'.grants grant = some row → w'.owed row.user ≠ .nothing) :
    w'.Leaves revoked' grant := by
  intro hrevoked row hrow
  rcases hnew hrevoked with hold | howed
  · have howed := hleaves hold row (h.grant hlt hrow)
    cases h.owes row.user with
    | same _ hsame => rwa [hsame]
    | disabled hnow => rw [hnow]; nofun
    | revoked _ hnow => rw [hnow]; nofun
    | signedOut _ _ hgrants => exact absurd rfl (hgrants grant row hrow)
  · exact howed row hrow

theorem Keeps.admitted (h : Keeps w w') (hin : w.InFamily token family user)
    (hadmitted : w.Admitted family user) : w'.Admitted family user := by
  intro howed
  cases h.owes user with
  | same _ hsame =>
    rw [hsame] at howed ⊢
    exact (hadmitted howed).imp h.isRevoked id
  | disabled hnow => exact .inr hnow
  | revoked _ _ hfamilies =>
    obtain ⟨-, row, hrow, huser⟩ := h.inFamily hin
    exact .inl (isRevoked_iff.mpr ⟨row, hrow, hfamilies family row hrow huser⟩)
  | signedOut _ hwas _ => exact (hadmitted (by rw [hwas]; nofun)).elim (fun hrevoked =>
    .inl (h.isRevoked hrevoked)) fun hwas' => absurd (hwas.symm.trans hwas') nofun

variable {signIn : Option Nat}

theorem Keeps.issuable (h : Keeps w w') (hin : w.InFamily token family user)
    (hissuable : w.Issuable family user signIn) : w'.Issuable family user signIn := by
  cases h.owes user with
  | same hdisables hsame =>
    rw [World.Issuable, hdisables, hsame]
    exact hissuable.imp id (.imp h.isRevoked id)
  | disabled hnow => exact .inr (.inr hnow)
  | revoked _ _ hfamilies =>
    obtain ⟨-, row, hrow, huser⟩ := h.inFamily hin
    exact .inr (.inl (isRevoked_iff.mpr ⟨row, hrow, hfamilies family row hrow huser⟩))
  | signedOut hdisables hwas _ =>
    rw [World.Issuable, hdisables]
    rcases hissuable with hsign | hrevoked | hwas'
    · exact .inl hsign
    · exact .inr (.inl (h.isRevoked hrevoked))
    · exact absurd (hwas.symm.trans hwas') nofun

variable {refresh : Option Token} {call : Call}

section

variable (h : Keeps w w')
include h

theorem Keeps.alone (halone : w.Alone grant refresh) : w'.Alone grant refresh := by
  intro token htoken
  obtain ⟨hlt, hone⟩ := halone token htoken
  refine ⟨Nat.lt_of_lt_of_le hlt h.nextToken, fun id row hrow hrefresh => ?_⟩
  rcases h.grants id row hrow with hold | ⟨-, hfresh⟩
  · exact hone id row hold hrefresh
  · exact absurd hlt (Nat.not_lt.mpr (hfresh token hrefresh))

theorem Keeps.belongs (hlt : grant < w.nextGrant) (hbelongs : w.Belongs grant user refresh) :
    w'.Belongs grant user refresh :=
  ⟨fun row hrow => hbelongs.1 row (h.grant hlt hrow), h.alone hbelongs.2⟩

theorem Keeps.issued (hlt : grant < w.nextGrant)
    (hin : w.InFamily token family user) (hbelongs : w.Belongs grant user refresh)
    (hissuable : (w.grants grant).isSome = true → w.Issuable family user (w.signIn grant)) :
    (w'.grants grant).isSome = true → w'.Issuable family user (w'.signIn grant) := by
  intro hsome
  obtain ⟨row, hrow⟩ := isSome_iff_exists.mp hsome
  have hold := h.grant hlt hrow
  rcases h.signIn grant row hlt hrow with hsign | hsign
  · rw [hsign]
    exact h.issuable hin (hissuable (by rw [hold]; rfl))
  · rw [hsign, (hbelongs.1 row hold).1]
    exact .inl rfl

/-- What a grant that waits to be recorded relies on. -/
theorem Keeps.waiting (hspares : w'.isRevoked family = true → w.isRevoked family = true ∨
      ∀ row, w'.families family = some row → w'.owed row.user ≠ .nothing)
    (hold : w.Current grant ∧ w.Leaves (w.isRevoked family) grant ∧
      ∃ row, w.families family = some row ∧ w.Belongs grant row.user refresh) :
    w'.Current grant ∧ w'.Leaves (w'.isRevoked family) grant ∧
      ∃ row, w'.families family = some row ∧ w'.Belongs grant row.user refresh := by
  obtain ⟨hcurrent, hleaves, row, hrow, hbelongs⟩ := hold
  obtain ⟨row', hrow', huser, -⟩ := h.families family row hrow
  have hbelongs' := h.belongs hcurrent.1 hbelongs
  refine ⟨h.current hcurrent, h.leaves hcurrent.1 hleaves fun hrevoked => ?_, row', hrow',
    huser ▸ hbelongs'⟩
  refine (hspares hrevoked).imp id fun howed grantRow hgrant => ?_
  rw [(hbelongs'.1 grantRow hgrant).1, ← huser]
  exact howed row' hrow'

theorem Keeps.holds (hspares : ∀ family, call.recordsIn = some family → w'.isRevoked family = true →
      w.isRevoked family = true ∨
        ∀ row, w'.families family = some row → w'.owed row.user ≠ .nothing)
    (hholds : w.Holds call) : w'.Holds call := by
  match call with
  | .active token family user => exact h.inFamily hholds
  | .standing token family user => exact ⟨h.inFamily hholds.1, h.admitted hholds.1 hholds.2⟩
  | .claiming token family =>
    obtain ⟨user, hin, hadmitted⟩ := hholds
    exact ⟨user, h.inFamily hin, h.admitted hin hadmitted⟩
  | .exchanging token =>
    obtain ⟨family, user, hin, hadmitted⟩ := hholds
    exact ⟨family, user, h.inFamily hin, h.admitted hin hadmitted⟩
  | .issuing token user client signIn =>
    obtain ⟨family, hin, hissuable⟩ := hholds
    exact ⟨family, h.inFamily hin, h.issuable hin hissuable⟩
  | .looking none grant refresh =>
    obtain ⟨hlt, hrefresh, halone⟩ := hholds
    exact ⟨Nat.lt_of_lt_of_le hlt h.nextGrant,
      fun row hrow => hrefresh row (h.grant hlt hrow), h.alone halone⟩
  | .looking (some previous) grant refresh =>
    obtain ⟨hlt, hsome, family, user, hin, hbelongs, hissuable⟩ := hholds
    exact ⟨Nat.lt_of_lt_of_le hlt h.nextGrant, hsome, family, user, h.inFamily hin,
      h.belongs hlt hbelongs, h.issued hlt hin hbelongs hissuable⟩
  | .rereading previous grant refresh =>
    obtain ⟨hlt, family, user, hin, hbelongs, hissuable⟩ := hholds
    exact ⟨Nat.lt_of_lt_of_le hlt h.nextGrant, family, user, h.inFamily hin,
      h.belongs hlt hbelongs, h.issued hlt hin hbelongs hissuable⟩
  | .superseding _ grant refresh family _ => exact h.waiting (hspares family rfl) hholds
  | .admitting grant user _ refresh _ =>
    exact ⟨Nat.lt_of_lt_of_le hholds.1 h.nextGrant, h.belongs hholds.1 hholds.2⟩
  | .creating grant user _ refresh _ =>
    exact ⟨h.current hholds.1, h.belongs hholds.1.1 hholds.2⟩
  | .recording _ grant refresh family => exact h.waiting (hspares family rfl) hholds
  | .reading _ _ | .vetoing _ | .revoking _ _ | .listing _ | .deleting _ | .disabling _ _
  | .revokingFamilies _ _ | .signingOut _ => trivial

end

/-- What a step adds to what it keeps. -/
structure Adds (w w' : World) : Prop where
  families : ∀ id family, w'.families id = some family → id < w'.nextFamily
  grants : ∀ id grant, w'.grants id = some grant → id < w'.nextGrant
  refresh : ∀ id grant token, w'.grants id = some grant → grant.refresh = some token →
    token < w'.nextToken
  tokens : ∀ token row', w'.tokens token = some row' →
    (∃ row, w.tokens token = some row ∧ row'.family = row.family ∧ row'.grant = row.grant) ∨
      w'.RowHolds token row'
  recorded : ∀ entry ∈ w'.recorded, entry ∈ w.recorded ∨
    entry.grant < w'.nextGrant ∧ w'.Leaves entry.late entry.grant
  answered : w'.answered = w.answered
  calls : w'.calls = w.calls
  nextCall : w'.nextCall = w.nextCall
  owed : ∀ user, w'.owed user ≠ .nothing → w'.disabled user = true

variable {row : RefreshToken}

theorem Keeps.rowHolds (h : Keeps w w') {row' : RefreshToken} (hfamily : row'.family = row.family)
    (hgrant : row'.grant = row.grant) (hrow : w.RowHolds token row) : w'.RowHolds token row' := by
  obtain ⟨hcurrent, family, hfamilyRow, hbelongs⟩ := hrow
  obtain ⟨family', hfamilyRow', huser, -⟩ := h.families _ family hfamilyRow
  rw [World.RowHolds, hfamily, hgrant]
  exact ⟨h.current hcurrent, family', hfamilyRow', huser ▸ h.belongs hcurrent.1 hbelongs⟩

theorem Sound.keep (h : Sound w) (hk : Keeps w w') (hadds : Adds w w') (hspares : Spares w w') :
    Sound w' where
  families_lt := hadds.families
  grants_lt := hadds.grants
  refresh_lt := hadds.refresh
  calls_lt := by
    rw [hadds.calls, hadds.nextCall]
    exact h.calls_lt
  rows := by
    intro token row' hrow'
    rcases hadds.tokens token row' hrow' with ⟨row, hrow, hfamily, hgrant⟩ | hnew
    · exact hk.rowHolds hfamily hgrant (h.rows token row hrow)
    · exact hnew
  answered := by
    rw [hadds.answered]
    exact fun grant hgrant => hk.current (h.answered grant hgrant)
  recorded := by
    intro entry hentry
    rcases hadds.recorded entry hentry with hold | hnew
    · obtain ⟨hlt, hleaves⟩ := h.recorded entry hold
      exact ⟨Nat.lt_of_lt_of_le hlt hk.nextGrant, hk.leaves hlt hleaves .inl⟩
    · exact hnew
  owed := hadds.owed
  holds := by
    intro id call hcall
    rw [hadds.calls] at hcall
    exact hk.holds (fun family => hspares id call family hcall) (h.holds id call hcall)

/-! ## Steps of calls alone -/

/-- Nothing changes but where the calls are, and what was answered. -/
structure Same (w w' : World) : Prop where
  disabled : w'.disabled = w.disabled
  families : w'.families = w.families
  tokens : w'.tokens = w.tokens
  grants : w'.grants = w.grants
  nextFamily : w'.nextFamily = w.nextFamily
  nextToken : w'.nextToken = w.nextToken
  nextGrant : w'.nextGrant = w.nextGrant
  disables : w'.disables = w.disables
  owed : w'.owed = w.owed
  signIn : w'.signIn = w.signIn
  recorded : w'.recorded = w.recorded

theorem Same.keeps (h : Same w w') : Keeps w w' where
  tokens := fun _ row hrow => ⟨row, h.tokens ▸ hrow, rfl⟩
  families := fun _ family hfamily => ⟨family, h.families ▸ hfamily, rfl, fun hrevoked => hrevoked⟩
  grants := fun _ _ hgrant => .inl (h.grants ▸ hgrant)
  nextGrant := Nat.le_of_eq h.nextGrant.symm
  nextToken := Nat.le_of_eq h.nextToken.symm
  signIn := fun id _ _ _ => .inl (congrFun h.signIn id)
  owes := fun user => .same (congrFun h.disables user) (congrFun h.owed user)

theorem Spares.of_families (h : w'.families = w.families) : Spares w w' := by
  intro id call family _ _ hrevoked
  rw [World.isRevoked, h] at hrevoked
  exact .inl hrevoked

theorem Sound.calls (h : Sound w) (hsame : Same w w')
    (hcalls : ∀ id call, w'.calls id = some call → id < w'.nextCall ∧
      (w.calls id = some call ∨ w.Holds call))
    (hanswered : ∀ grant ∈ w'.answered, grant ∈ w.answered ∨ w.Current grant) : Sound w' where
  families_lt := by
    rw [hsame.families, hsame.nextFamily]
    exact h.families_lt
  grants_lt := by
    rw [hsame.grants, hsame.nextGrant]
    exact h.grants_lt
  refresh_lt := by
    rw [hsame.grants, hsame.nextToken]
    exact h.refresh_lt
  calls_lt := fun id call hcall => (hcalls id call hcall).1
  rows := by
    rw [hsame.tokens]
    exact fun token row hrow => hsame.keeps.rowHolds rfl rfl (h.rows token row hrow)
  answered := fun grant hgrant =>
    hsame.keeps.current ((hanswered grant hgrant).elim (h.answered grant) id)
  recorded := by
    rw [hsame.recorded]
    intro entry hentry
    obtain ⟨hlt, hleaves⟩ := h.recorded entry hentry
    exact ⟨hsame.nextGrant ▸ hlt, hsame.keeps.leaves hlt hleaves .inl⟩
  owed := by
    rw [hsame.owed, hsame.disabled]
    exact h.owed
  holds := fun id call hcall => hsame.keeps.holds
    (fun family hrecords hrevoked => by
      rw [World.isRevoked, hsame.families] at hrevoked
      exact .inl hrevoked)
    ((hcalls id call hcall).2.elim (h.holds id call) fun hnew => hnew)

/-- A row of an updated table. -/
theorem update_some {α β : Type} [DecidableEq α] {table : α → Option β} {key key' : α}
    {row row' : β} (h : update table key (some row) key' = some row') :
    key' = key ∧ row' = row ∨ key' ≠ key ∧ table key' = some row' := by
  by_cases hsame : key' = key
  · subst hsame
    rw [update_self] at h
    exact .inl ⟨rfl, (some.inj h).symm⟩
  · rw [update_of_ne hsame] at h
    exact .inr ⟨hsame, h⟩

variable {id : CallId} {id' : CallId}

theorem goesOn_calls {next call : Call} (h : (w.goesOn id next).calls id' = some call) :
    id' = id ∧ call = next ∨ id' ≠ id ∧ w.calls id' = some call :=
  update_some h

theorem Sound.goesOn {next : Call} (h : Sound w) (hid : id < w.nextCall) (hnext : w.Holds next) :
    Sound (w.goesOn id next) := by
  refine h.calls ⟨rfl, rfl, rfl, rfl, rfl, rfl, rfl, rfl, rfl, rfl, rfl⟩ ?_ fun _ => .inl
  intro id' call hcall
  rcases goesOn_calls hcall with ⟨rfl, rfl⟩ | ⟨-, hold⟩
  · exact ⟨hid, .inr hnext⟩
  · exact ⟨h.calls_lt id' call hold, .inl hold⟩

theorem ends_calls (h : (w.ends id).calls id' = some call) :
    id' ≠ id ∧ w.calls id' = some call := by
  have hupdate : update w.calls id none id' = some call := h
  by_cases hsame : id' = id
  · rw [hsame, update_self] at hupdate
    cases hupdate
  · rw [update_of_ne hsame] at hupdate
    exact ⟨hsame, hupdate⟩

theorem Sound.ends (h : Sound w) (id : CallId) : Sound (w.ends id) := by
  refine h.calls ⟨rfl, rfl, rfl, rfl, rfl, rfl, rfl, rfl, rfl, rfl, rfl⟩ ?_ fun _ => .inl
  intro id' call hcall
  have hold := (ends_calls hcall).2
  exact ⟨h.calls_lt id' call hold, .inl hold⟩

theorem Sound.answers (h : Sound w) (id : CallId) (hgrant : w.Current grant) :
    Sound (w.answers id grant) := by
  refine h.calls ⟨rfl, rfl, rfl, rfl, rfl, rfl, rfl, rfl, rfl, rfl, rfl⟩ ?_ ?_
  · intro id' call hcall
    have hold := (ends_calls hcall).2
    exact ⟨h.calls_lt id' call hold, .inl hold⟩
  · intro other hother
    rcases mem_append.mp hother with hold | hnew
    · exact .inl hold
    · exact .inr (mem_singleton.mp hnew ▸ hgrant)

theorem begin_calls {new call : Call} (h : (w.begin new).calls id = some call) :
    id = w.nextCall ∧ call = new ∨ id ≠ w.nextCall ∧ w.calls id = some call :=
  update_some h

theorem Sound.begin {new : Call} (h : Sound w) (hnew : w.Holds new) : Sound (w.begin new) := by
  refine h.calls ⟨rfl, rfl, rfl, rfl, rfl, rfl, rfl, rfl, rfl, rfl, rfl⟩ ?_ fun _ => .inl
  intro id call hcall
  rcases begin_calls hcall with ⟨rfl, rfl⟩ | ⟨-, hold⟩
  · exact ⟨Nat.lt_succ_self _, .inr hnew⟩
  · exact ⟨Nat.lt_succ_of_lt (h.calls_lt id call hold), .inl hold⟩

/-! ## Steps of the tables -/

/-- Nothing is added. -/
theorem Sound.adds (h : Sound w) (hfamilies : w'.families = w.families)
    (hgrants : ∀ id grant, w'.grants id = some grant → w.grants id = some grant)
    (htokens : w'.tokens = w.tokens) (hnextFamily : w'.nextFamily = w.nextFamily)
    (hnextGrant : w'.nextGrant = w.nextGrant) (hnextToken : w'.nextToken = w.nextToken)
    (hrecorded : w'.recorded = w.recorded) (hanswered : w'.answered = w.answered)
    (hcalls : w'.calls = w.calls) (hnextCall : w'.nextCall = w.nextCall)
    (howed : ∀ user, w'.owed user ≠ .nothing → w'.disabled user = true) : Adds w w' where
  families := by
    rw [hfamilies, hnextFamily]
    exact h.families_lt
  grants := fun id grant hgrant => hnextGrant ▸ h.grants_lt id grant (hgrants id grant hgrant)
  refresh := fun id grant token hgrant hrefresh =>
    hnextToken ▸ h.refresh_lt id grant token (hgrants id grant hgrant) hrefresh
  tokens := fun token row hrow => .inl ⟨row, htokens ▸ hrow, rfl, rfl⟩
  recorded := fun entry hentry => .inl (hrecorded ▸ hentry)
  answered := hanswered
  calls := hcalls
  nextCall := hnextCall
  owed := howed

theorem Sound.deleteGrants (h : Sound w) (ids : List GrantId) : Sound (w.deleteGrants ids) := by
  have hgrants : ∀ id grant, (w.deleteGrants ids).grants id = some grant →
      w.grants id = some grant := by
    intro id grant hgrant
    rw [World.deleteGrants] at hgrant
    dsimp only at hgrant
    split at hgrant
    · cases hgrant
    · exact hgrant
  refine h.keep ⟨?_, ?_, fun id grant hgrant => .inl (hgrants id grant hgrant), Nat.le_refl _,
    Nat.le_refl _, ?_, ?_⟩
    (h.adds rfl hgrants rfl rfl rfl rfl rfl rfl rfl rfl h.owed) (.of_families rfl)
  · exact fun token row hrow => ⟨row, hrow, rfl⟩
  · exact fun id family hfamily => ⟨family, hfamily, rfl, fun hrevoked => hrevoked⟩
  · exact fun id grant _ _ => .inl rfl
  · exact fun user => .same rfl rfl

/-- The token is claimed. -/
theorem Sound.rotate (h : Sound w) (hrow : w.tokens token = some row) :
    Sound (w.setToken token { row with rotated := true }) := by
  have htokens : ∀ token' row', (w.setToken token { row with rotated := true }).tokens token' =
      some row' → ∃ row, w.tokens token' = some row ∧ row'.family = row.family ∧
        row'.grant = row.grant := by
    intro token' row' hrow'
    rcases update_some hrow' with ⟨rfl, rfl⟩ | ⟨-, hold⟩
    · exact ⟨row, hrow, rfl, rfl⟩
    · exact ⟨row', hold, rfl, rfl⟩
  refine h.keep ⟨?_, ?_, fun _ _ => .inl, Nat.le_refl _, Nat.le_refl _, fun _ _ _ _ => .inl rfl,
    fun _ => .same rfl rfl⟩ ⟨h.families_lt, h.grants_lt, h.refresh_lt,
      fun token' row' hrow' => .inl (htokens token' row' hrow'), fun _ => .inl, rfl, rfl, rfl,
      h.owed⟩ (.of_families rfl)
  · intro token' row' hrow'
    by_cases hsame : token' = token
    · subst hsame
      cases hrow.symm.trans hrow'
      exact ⟨_, update_self .., rfl⟩
    · exact ⟨row', (update_of_ne hsame ..).trans hrow', rfl⟩
  · exact fun id family hfamily => ⟨family, hfamily, rfl, fun hrevoked => hrevoked⟩

/-- The authorization server answers with a new pair. -/
theorem Sound.issue (h : Sound w) (user : UserId) (client : ClientId)
    (hrefresh : ∀ token, refresh = some token → token = w.nextToken) (signIn : Option Nat) :
    Sound (w.issue user client refresh signIn) := by
  have hgrants : ∀ id grant, (w.issue user client refresh signIn).grants id = some grant →
      id = w.nextGrant ∧ grant = ⟨user, client, refresh⟩ ∨ w.grants id = some grant :=
    fun id grant hgrant => (update_some hgrant).imp (fun hnew => hnew) And.right
  refine h.keep ⟨?_, ?_, ?_, Nat.le_succ _, Nat.le_succ _, ?_, fun _ => .same rfl rfl⟩
    ⟨h.families_lt, ?_, ?_, fun token row hrow => .inl ⟨row, hrow, rfl, rfl⟩, fun _ => .inl,
      rfl, rfl, rfl, h.owed⟩ (.of_families rfl)
  · exact fun token row hrow => ⟨row, hrow, rfl⟩
  · exact fun id family hfamily => ⟨family, hfamily, rfl, fun hrevoked => hrevoked⟩
  · intro id grant hgrant
    rcases hgrants id grant hgrant with ⟨rfl, rfl⟩ | hwas
    · exact .inr ⟨Nat.le_refl _, fun token htoken => Nat.le_of_eq (hrefresh token htoken).symm⟩
    · exact .inl hwas
  · exact fun id grant hlt _ => .inl (update_of_ne (Nat.ne_of_lt hlt) ..)
  · intro id grant hgrant
    rcases hgrants id grant hgrant with ⟨rfl, -⟩ | hwas
    · exact Nat.lt_succ_self _
    · exact Nat.lt_succ_of_lt (h.grants_lt id grant hwas)
  · intro id grant token hgrant htoken
    rcases hgrants id grant hgrant with ⟨-, rfl⟩ | hwas
    · rw [hrefresh token htoken]
      exact Nat.lt_succ_self _
    · exact Nat.lt_succ_of_lt (h.refresh_lt id grant token hwas htoken)

/-- A sign-in is approved for an account that owes nothing. -/
theorem Sound.approve (h : Sound w) (howed : w.owed user = .nothing)
    (hbelongs : w.Belongs grant user refresh) : Sound (w.approve user grant) := by
  refine h.keep ⟨?_, ?_, fun _ _ => .inl, Nat.le_refl _, Nat.le_refl _, ?_, fun _ => .same rfl rfl⟩
    (h.adds rfl (fun _ _ hgrant => hgrant) rfl rfl rfl rfl rfl rfl rfl rfl ?_) (.of_families rfl)
  · exact fun token row hrow => ⟨row, hrow, rfl⟩
  · exact fun id family hfamily => ⟨family, hfamily, rfl, fun hrevoked => hrevoked⟩
  · intro id row _ hrow
    by_cases hsame : id = grant
    · subst hsame
      refine .inr ((update_self ..).trans ?_)
      rw [(hbelongs.1 row hrow).1]
      rfl
    · exact .inl (update_of_ne hsame ..)
  · intro other hother
    have hne : other ≠ user := by
      rintro rfl
      exact hother howed
    exact (update_of_ne hne ..).trans (h.owed other hother)

theorem current_approve (hlt : grant < w.nextGrant) (hbelongs : w.Belongs grant user refresh) :
    (w.approve user grant).Current grant := by
  refine ⟨hlt, fun row hrow => .inl ((update_self ..).trans ?_)⟩
  rw [(hbelongs.1 row hrow).1]
  rfl

theorem Sound.createFamily {new : Family} (h : Sound w) (hnew : new.revoked = none) :
    Sound (w.createFamily new) := by
  have hfamilies : ∀ id family, (w.createFamily new).families id = some family →
      id = w.nextFamily ∧ family = new ∨ w.families id = some family :=
    fun id family hfamily => (update_some hfamily).imp (fun hnew => hnew) And.right
  refine h.keep ⟨?_, ?_, fun _ _ => .inl, Nat.le_refl _, Nat.le_refl _, fun _ _ _ _ => .inl rfl,
    fun _ => .same rfl rfl⟩ ⟨?_, h.grants_lt, h.refresh_lt,
      fun token row hrow => .inl ⟨row, hrow, rfl, rfl⟩, fun _ => .inl, rfl, rfl, rfl, h.owed⟩ ?_
  · exact fun token row hrow => ⟨row, hrow, rfl⟩
  · exact fun id family hfamily => ⟨family,
      (update_of_ne (Nat.ne_of_lt (h.families_lt id family hfamily)) ..).trans hfamily, rfl,
      fun hrevoked => hrevoked⟩
  · intro id family hfamily
    rcases hfamilies id family hfamily with ⟨rfl, -⟩ | hold
    · exact Nat.lt_succ_self _
    · exact Nat.lt_succ_of_lt (h.families_lt id family hold)
  · intro id call family _ _ hrevoked
    obtain ⟨row, hrow, hsome⟩ := isRevoked_iff.mp hrevoked
    rcases hfamilies family row hrow with ⟨-, rfl⟩ | hold
    · rw [hnew] at hsome
      cases hsome
    · exact .inl (isRevoked_iff.mpr ⟨row, hold, hsome⟩)

variable {previous : Option Token}

/-- A new pair is recorded. -/
theorem Sound.recordToken (h : Sound w) (hnone : w.tokens token = none)
    (hholds : w.RowHolds token row) (hleaves : w.Leaves (w.isRevoked row.family) row.grant) :
    Sound (w.recordToken token row previous) := by
  refine h.keep ⟨?_, ?_, fun _ _ => .inl, Nat.le_refl _, Nat.le_refl _, fun _ _ _ _ => .inl rfl,
    fun _ => .same rfl rfl⟩ ⟨h.families_lt, h.grants_lt, h.refresh_lt, ?_, ?_, rfl, rfl,
      rfl, h.owed⟩ (.of_families rfl)
  · intro token' row' hrow'
    refine ⟨row', (update_of_ne ?_ ..).trans hrow', rfl⟩
    rintro rfl
    rw [hnone] at hrow'
    cases hrow'
  · exact fun id family hfamily => ⟨family, hfamily, rfl, fun hrevoked => hrevoked⟩
  · intro token' row' hrow'
    rcases update_some hrow' with ⟨rfl, rfl⟩ | ⟨-, hold⟩
    · exact .inr hholds
    · exact .inl ⟨row', hold, rfl, rfl⟩
  · intro entry hentry
    rcases mem_append.mp hentry with hold | hnew
    · exact .inl hold
    · obtain rfl := mem_singleton.mp hnew
      exact .inr ⟨hholds.1.1, hleaves⟩

variable {which : FamilyId → Family → Bool} {reason : Reason}

/-! ## Revoking and signing out -/

/-- A row after an update that revokes families. -/
theorem revoke_row {id : FamilyId} {row' : Family}
    (h : (w.revoke which reason).families id = some row') :
    ∃ row, w.families id = some row ∧ row'.user = row.user ∧
      (which id row = true → row'.revoked.isSome = true) ∧
        (row'.revoked.isSome = true → row.revoked.isSome = true ∨ which id row = true) := by
  obtain ⟨row, hrow, rfl⟩ := map_eq_some_iff.mp h
  refine ⟨row, hrow, ?_⟩
  by_cases hrevoked : row.revoked.isSome = true
  · have hnot : (which id row && row.revoked.isNone) = false := by
      rw [← not_isSome, hrevoked, Bool.not_true, Bool.and_false]
    rw [hnot]
    exact ⟨rfl, fun _ => hrevoked, .inl⟩
  · have hnone : row.revoked.isNone = true := by
      rw [← not_isSome, Bool.eq_false_iff.mpr hrevoked]
      rfl
    cases hwhich : which id row with
    | false => exact ⟨rfl, nofun, .inl⟩
    | true =>
      rw [hnone]
      exact ⟨rfl, fun _ => rfl, fun _ => .inr rfl⟩

theorem families_revoke (which : FamilyId → Family → Bool) (reason : Reason) {id : FamilyId}
    {row : Family} (h : w.families id = some row) :
    ∃ row', (w.revoke which reason).families id = some row' ∧ row'.user = row.user ∧
      (row.revoked.isSome = true → row'.revoked.isSome = true) := by
  refine ⟨_, map_eq_some_iff.mpr ⟨row, h, rfl⟩, ?_⟩
  split
  · exact ⟨rfl, fun _ => rfl⟩
  · exact ⟨rfl, fun hrevoked => hrevoked⟩

/-- When no grant waits there, a family that a grant is to be recorded in was revoked before. -/
theorem revoked_of_waits (h : Sound w) (hwaits : w.waits which = false) {row : Family}
    (hcall : w.calls id = some call) (hrecords : call.recordsIn = some family)
    (hrow : w.families family = some row) (hwhich : which family row = true) :
    w.isRevoked family = true := by
  rw [World.waits, List.any_eq_false] at hwaits
  have hno := hwaits id (mem_range.mpr (h.calls_lt id call hcall))
  rw [hcall, any_some, hrecords, any_some, hrow, any_some, hwhich,
    Bool.true_and, ← not_isSome] at hno
  rw [World.isRevoked, hrow, any_some]
  exact Bool.not_eq_false _ |>.mp fun hfalse => hno (by rw [hfalse]; rfl)

theorem keeps_revoke : Keeps w (w.revoke which reason) :=
  ⟨fun _ row hrow => ⟨row, hrow, rfl⟩, fun _ _ => families_revoke which reason, fun _ _ => .inl,
    Nat.le_refl _, Nat.le_refl _, fun _ _ _ _ => .inl rfl, fun _ => .same rfl rfl⟩

/-- A family is revoked that no grant waits for. -/
theorem Sound.revoke (h : Sound w) (reason : Reason)
    (hwaits : w.waits (fun id _ => id = family) = false) :
    Sound (w.revoke (fun id _ => id = family) reason) := by
  refine h.keep keeps_revoke ⟨?_, h.grants_lt, h.refresh_lt,
    fun token row hrow => .inl ⟨row, hrow, rfl, rfl⟩, fun _ => .inl, rfl, rfl, rfl, h.owed⟩ ?_
  · intro id row hrow
    obtain ⟨old, hold, -⟩ := revoke_row hrow
    exact h.families_lt id old hold
  · intro id call other hcall hrecords hrevoked
    obtain ⟨row, hrow, hsome⟩ := isRevoked_iff.mp hrevoked
    obtain ⟨old, hold, -, -, hnew⟩ := revoke_row hrow
    rcases hnew hsome with hwas | hwhich
    · exact .inl (isRevoked_iff.mpr ⟨old, hold, hwas⟩)
    · exact .inl (revoked_of_waits h hwaits hcall hrecords hold hwhich)

/-- The families of a disabled account are revoked: it is to be signed out, or no grant waits. -/
theorem Sound.revokeFamilies (h : Sound w) (reason : String) (hwaits : w.owed user ≠ .nothing ∨
      w.waits (fun _ family => family.user = user) = false) :
    Sound (w.revokeFamilies user reason) := by
  have howed : ∀ other, other ≠ user ∨ w.owed user ≠ .revocation →
      (w.revokeFamilies user reason).owed other = w.owed other := by
    intro other hother
    rw [World.revokeFamilies]
    split
    · rename_i heq
      exact update_of_ne (hother.resolve_right fun hne => hne heq) ..
    · rfl
  have hsignOut : w.owed user = .revocation →
      (w.revokeFamilies user reason).owed user = .signOut := by
    intro heq
    rw [World.revokeFamilies]
    dsimp only
    rw [if_pos heq, update_self]
  have hrow : ∀ {id row'}, (w.revokeFamilies user reason).families id = some row' → ∃ row,
      w.families id = some row ∧ row'.user = row.user ∧
        (decide (row.user = user) = true → row'.revoked.isSome = true) ∧
          (row'.revoked.isSome = true →
            row.revoked.isSome = true ∨ decide (row.user = user) = true) := by
    intro id row' hfamily
    have hsame : (w.revokeFamilies user reason).families =
        (w.revoke (fun _ family => family.user = user) (.account reason)).families := rfl
    rw [hsame] at hfamily
    exact revoke_row hfamily
  refine h.keep ⟨fun _ row hrow => ⟨row, hrow, rfl⟩,
    fun _ _ => families_revoke (fun _ family => family.user = user) (.account reason),
    fun _ _ => .inl, Nat.le_refl _, Nat.le_refl _, fun _ _ _ _ => .inl rfl,
    fun other => ?_⟩ ⟨?_, h.grants_lt, h.refresh_lt,
      fun token row hrow => .inl ⟨row, hrow, rfl, rfl⟩, fun _ => .inl, rfl, rfl, rfl, ?_⟩ ?_
  · by_cases hthis : other = user ∧ w.owed user = .revocation
    · obtain ⟨rfl, heq⟩ := hthis
      refine .revoked rfl (hsignOut heq) fun id row' hfamily huser => ?_
      obtain ⟨row, -, hsame, hrevokes, -⟩ := hrow hfamily
      exact hrevokes (decide_eq_true (hsame ▸ huser))
    · exact .same rfl (howed other (Classical.not_and_iff_not_or_not.mp hthis))
  · intro id row hfamily
    obtain ⟨old, hold, -⟩ := hrow hfamily
    exact h.families_lt id old hold
  · intro other hother
    refine h.owed other fun hnothing => hother ?_
    rw [howed other (Classical.or_iff_not_imp_left.mpr fun hthis => ?_), hnothing]
    rw [← Classical.not_not.mp hthis, hnothing]
    nofun
  · intro id call family hcall hrecords hrevoked
    obtain ⟨row, hfamily, hsome⟩ := isRevoked_iff.mp hrevoked
    obtain ⟨old, hold, hsame, -, hnew⟩ := hrow hfamily
    rcases hnew hsome with hwas | hwhich
    · exact .inl (isRevoked_iff.mpr ⟨old, hold, hwas⟩)
    · rcases hwaits with howes | hwaits
      · refine .inr fun row' hrow' => ?_
        rw [hfamily, some.injEq] at hrow'
        subst hrow'
        rw [hsame, of_decide_eq_true hwhich]
        by_cases heq : w.owed user = .revocation
        · rw [hsignOut heq]
          nofun
        · rwa [howed user (.inr heq)]
      · exact .inl (revoked_of_waits h hwaits hcall hrecords hold hwhich)

theorem Sound.disable (h : Sound w) (user : UserId) : Sound (w.disable user) := by
  rw [World.disable]
  split
  · exact h
  · refine h.keep ⟨fun _ row hrow => ⟨row, hrow, rfl⟩,
      fun _ family hfamily => ⟨family, hfamily, rfl, fun hrevoked => hrevoked⟩, fun _ _ => .inl,
      Nat.le_refl _, Nat.le_refl _, fun _ _ _ _ => .inl rfl, fun other => ?_⟩
      ⟨h.families_lt, h.grants_lt, h.refresh_lt,
        fun token row hrow => .inl ⟨row, hrow, rfl, rfl⟩, fun _ => .inl, rfl, rfl, rfl, ?_⟩
      (.of_families rfl)
    · by_cases hsame : other = user
      · exact .disabled (by rw [hsame]; exact update_self ..)
      · exact .same (update_of_ne hsame ..) (update_of_ne hsame ..)
    · intro other hother
      by_cases hsame : other = user
      · rw [hsame]
        exact update_self ..
      · have hwas : update w.owed user .revocation other ≠ .nothing := hother
        rw [update_of_ne hsame] at hwas
        exact (update_of_ne hsame ..).trans (h.owed other hwas)

theorem Sound.signOut (h : Sound w) (user : UserId) : Sound (w.signOut user) := by
  have hgrants : ∀ id grant, (w.signOut user).grants id = some grant →
      w.grants id = some grant ∧ grant.user ≠ user := by
    intro id grant hgrant
    obtain ⟨hwas, hne⟩ := filter_eq_some_iff.mp hgrant
    exact ⟨hwas, of_decide_eq_true hne⟩
  have howed : ∀ other, other ≠ user ∨ w.owed user ≠ .signOut →
      (w.signOut user).owed other = w.owed other := by
    intro other hother
    rw [World.signOut]
    split
    · rename_i heq
      exact update_of_ne (hother.resolve_right fun hne => hne heq) ..
    · rfl
  refine h.keep ⟨fun _ row hrow => ⟨row, hrow, rfl⟩,
    fun _ family hfamily => ⟨family, hfamily, rfl, fun hrevoked => hrevoked⟩,
    fun id grant hgrant => .inl (hgrants id grant hgrant).1, Nat.le_refl _, Nat.le_refl _,
    fun _ _ _ _ => .inl rfl, fun other => ?_⟩
    (h.adds rfl (fun id grant hgrant => (hgrants id grant hgrant).1) rfl rfl rfl rfl rfl rfl rfl rfl
      ?_) (.of_families rfl)
  · by_cases hthis : other = user ∧ w.owed user = .signOut
    · obtain ⟨rfl, heq⟩ := hthis
      exact .signedOut rfl heq fun id grant hgrant => (hgrants id grant hgrant).2
    · exact .same rfl (howed other (Classical.not_and_iff_not_or_not.mp hthis))
  · intro other hother
    refine h.owed other fun hnothing => hother ?_
    rw [howed other (Classical.or_iff_not_imp_left.mpr fun hthis => ?_), hnothing]
    rw [← Classical.not_not.mp hthis, hnothing]
    nofun

/-! ## Steps of a call -/

theorem sound_empty (now : Nat) : Sound (empty now) := by
  constructor <;> nofun

theorem grantOf_some {row : Grant} (h : w.grantOf token = some grant)
    (hrow : w.grants grant = some row) : row.refresh = some token := by
  have hfound := List.find?_some h
  rw [hrow, any_some] at hfound
  exact of_decide_eq_true hfound

/-- The account is found active, so its last disable owes nothing. -/
theorem Sound.admitted (h : Sound w) (hactive : w.disabled user = false) (family : FamilyId) :
    w.Admitted family user := by
  intro howed
  rw [h.owed user howed] at hactive
  cases hactive

/-- The authorization server found the token: its grant is the one recorded with it. -/
theorem Sound.exchanging {row : Grant} (h : Sound w) (hholds : w.Holds (.exchanging token))
    (hfound : w.grantOf token = some grant) (hrow : w.grants grant = some row) :
    w.Holds (.issuing token row.user row.client (w.signIn grant)) := by
  obtain ⟨family, user, hin, hadmitted⟩ := hholds
  obtain ⟨⟨tokenRow, htoken, hfamily⟩, familyRow, hfamilyRow, huser⟩ := hin
  obtain ⟨hcurrent, other, hother, hbelongs⟩ := h.rows token tokenRow htoken
  obtain rfl : grant = tokenRow.grant :=
    (hbelongs.2 token rfl).2 grant row hrow (grantOf_some hfound hrow)
  obtain rfl : other = familyRow :=
    some.inj ((hfamily ▸ hother).symm.trans hfamilyRow)
  have hsame : row.user = user := (hbelongs.1 row hrow).1.trans huser
  refine ⟨family, ⟨⟨tokenRow, htoken, hfamily⟩, other, hfamilyRow, huser.trans hsame.symm⟩, ?_⟩
  refine (hcurrent.2 row hrow).imp id fun howed => ?_
  rw [hsame] at howed ⊢
  exact hadmitted howed

variable {client : ClientId}

/-- The grant that is issued. -/
theorem issue_row {row : Grant}
    (h : (w.issue user client refresh signIn).grants w.nextGrant = some row) :
    row = ⟨user, client, refresh⟩ := by
  rcases update_some h with ⟨-, hrow⟩ | ⟨hne, -⟩
  · exact hrow
  · exact absurd rfl hne

theorem Sound.issueAlone (h : Sound w) (user : UserId) (client : ClientId)
    (hrefresh : ∀ token, refresh = some token → token = w.nextToken) (signIn : Option Nat) :
    (w.issue user client refresh signIn).Alone w.nextGrant refresh := by
  intro token htoken
  obtain rfl := hrefresh token htoken
  refine ⟨Nat.lt_succ_self _, fun id row hrow hrowRefresh => ?_⟩
  rcases update_some hrow with ⟨rfl, -⟩ | ⟨-, hold⟩
  · rfl
  · exact absurd (h.refresh_lt id row _ hold hrowRefresh) (Nat.lt_irrefl _)

/-- What the answer to a refresh is looked up with. -/
theorem Sound.issued (h : Sound w) (hcall : w.calls id = some (.issuing token user client signIn)) :
    Sound (w.issue user client (some w.nextToken) signIn) ∧
      (w.issue user client (some w.nextToken) signIn).Holds
        (.looking (some token) w.nextGrant (some w.nextToken)) := by
  have hrefresh : ∀ token, some w.nextToken = some token → token = w.nextToken :=
    fun token htoken => (some.inj htoken).symm
  have hnew := h.issue user client hrefresh signIn
  obtain ⟨family, hin, hissuable⟩ := hnew.holds id _ hcall
  refine ⟨hnew, Nat.lt_succ_self _, rfl, family, user, hin,
    ⟨fun row hrow => ?_, h.issueAlone user client hrefresh signIn⟩, fun _ => ?_⟩
  · obtain rfl := issue_row hrow
    exact ⟨rfl, rfl⟩
  · have hself : (w.issue user client (some w.nextToken) signIn).signIn w.nextGrant = signIn :=
      update_self ..
    rw [hself]
    exact hissuable

/-- The second look at the family finds it unrevoked. -/
theorem Sound.supersede {previous : Token} {refresh : Token} {family : Family}
    (hholds : w.Holds (.rereading previous grant refresh)) (hrow : w.tokens previous = some row)
    (hfamily : w.families row.family = some family) (hunrevoked : ¬ family.revoked.isSome = true) :
    w.Holds (.superseding previous grant refresh row.family row.grant) := by
  obtain ⟨hlt, id, user, ⟨⟨old, hold, hid⟩, familyRow, hfamilyRow, huser⟩, hbelongs, hissuable⟩ :=
    hholds
  obtain rfl : old = row := some.inj (hold.symm.trans hrow)
  obtain rfl : familyRow = family :=
    some.inj ((hid ▸ hfamilyRow).symm.trans hfamily)
  have hnot : w.isRevoked old.family ≠ true := by
    rwa [World.isRevoked, hfamily]
  refine ⟨⟨hlt, fun grantRow hgrant => ?_⟩, fun hrevoked => absurd hrevoked hnot, familyRow,
    hfamily, huser.symm ▸ hbelongs⟩
  rw [(hbelongs.1 grantRow hgrant).1]
  rcases hissuable (by rw [hgrant]; rfl) with hsign | hrevoked | howed
  · exact .inl hsign
  · exact absurd (hid ▸ hrevoked) hnot
  · exact .inr (by rw [howed]; nofun)

theorem Sound.created {refresh : Token} {now : Nat} (h : Sound w)
    (hcall : w.calls id = some (.creating grant user client refresh now)) (new : Family)
    (hnew : new.revoked = none) (huser : new.user = user) : Sound (w.createFamily new) ∧
      (w.createFamily new).Holds (.recording none grant refresh w.nextFamily) := by
  have hnext := h.createFamily hnew
  obtain ⟨hcurrent, hbelongs⟩ := hnext.holds id _ hcall
  have hself : (w.createFamily new).families w.nextFamily = some new := update_self ..
  refine ⟨hnext, hcurrent, fun hrevoked => ?_, new, hself, huser.symm ▸ hbelongs⟩
  rw [World.isRevoked, hself, any_some, hnew] at hrevoked
  cases hrevoked

theorem Sound.recordedPair {refresh : Token} (h : Sound w)
    (hholds : w.Holds (.recording previous grant refresh family)) (hnone : w.tokens refresh = none)
    : Sound (w.recordToken refresh { family, grant } previous) ∧
      (w.recordToken refresh { family, grant } previous).Current grant := by
  obtain ⟨hcurrent, hleaves, row, hrow, hbelongs⟩ := hholds
  exact ⟨h.recordToken hnone ⟨hcurrent, row, hrow, hbelongs⟩ hleaves, hcurrent⟩

/-- A step of a call keeps what holds, unless it is one of the two. -/
theorem Sound.proceed {answer : Bool} (h : Sound w) (hcall : w.calls id = some call)
    (hkeeps : Action.keepsFamilies w (.proceed id answer) = true) :
    Sound (w.proceed policy id answer call) := by
  have hid := h.calls_lt id call hcall
  have hholds := h.holds id call hcall
  rw [Action.keepsFamilies, hcall] at hkeeps
  cases call with
  | reading token client =>
    rw [World.proceed]
    split
    · exact h.ends id
    · rename_i row hrow
      split
      · exact h.ends id
      · rename_i family hfamily
        split_ifs
        · exact h.goesOn hid trivial
        · exact h.ends id
        · exact h.ends id
        · exact h.goesOn hid trivial
        · exact h.goesOn hid ⟨⟨row, hrow, rfl⟩, family, hfamily, rfl⟩
  | active token family user =>
    rw [World.proceed]
    split
    · exact h.ends id
    · rename_i hactive
      exact h.goesOn hid ⟨hholds, h.admitted (Bool.eq_false_iff.mpr hactive) family⟩
  | standing token family user =>
    rw [World.proceed]
    split
    · exact h.goesOn hid ⟨user, hholds⟩
    · exact h.ends id
  | claiming token family =>
    rw [World.proceed]
    split
    · exact h.goesOn hid trivial
    · rename_i row hrow
      have hrotated := h.rotate (filter_eq_some_iff.mp hrow).1
      exact hrotated.goesOn hid ⟨family, hrotated.holds id _ hcall⟩
  | exchanging token =>
    rw [World.proceed]
    split
    · exact h.ends id
    · rename_i grant hfound
      split
      · exact h.ends id
      · rename_i row hrow
        split
        · exact h.goesOn hid (h.exchanging hholds hfound hrow)
        · exact h.ends id
  | issuing token user client signIn =>
    obtain ⟨hnew, hlooks⟩ := h.issued hcall
    exact hnew.goesOn hid hlooks
  | looking previous grant refresh =>
    rw [World.proceed]
    split
    · rename_i hnone
      refine h.answers id ⟨?_, fun row hrow => absurd (hnone.symm.trans hrow) nofun⟩
      cases previous with
      | none => exact hholds.1
      | some previous => exact hholds.1
    · rename_i row hrow
      cases previous with
      | none =>
        obtain ⟨hlt, hrefresh, halone⟩ := hholds
        refine h.goesOn hid ⟨hlt, fun other hother => ?_, halone⟩
        obtain rfl : row = other := some.inj (hrow.symm.trans hother)
        exact ⟨rfl, hrefresh row hrow⟩
      | some previous =>
        obtain ⟨hlt, hsome, hissued⟩ := hholds
        cases refresh with
        | none => cases hsome
        | some refresh => exact h.goesOn hid ⟨hlt, hissued⟩
  | rereading previous grant refresh =>
    rw [World.proceed]
    split
    · exact h.goesOn hid trivial
    · rename_i row hrow
      split
      · exact h.goesOn hid trivial
      · rename_i family hfamily
        split
        · exact h.goesOn hid trivial
        · rename_i hunrevoked
          exact h.goesOn hid (Sound.supersede hholds hrow hfamily hunrevoked)
  | superseding previous grant refresh family superseded =>
    have hnew := h.deleteGrants [superseded]
    have hwaits : (w.deleteGrants [superseded]).Holds
        (.superseding previous grant refresh family superseded) := hnew.holds id _ hcall
    exact hnew.goesOn hid hwaits
  | admitting grant user client refresh now =>
    cases answer with
    | false => exact h.goesOn hid trivial
    | true =>
      have hnew := h.approve (of_decide_eq_true hkeeps) hholds.2
      have hcurrent := current_approve hholds.1 hholds.2
      cases refresh with
      | none => exact hnew.answers id hcurrent
      | some refresh => exact hnew.goesOn hid ⟨hcurrent, (hnew.holds id _ hcall).2⟩
  | creating grant user client refresh now =>
    obtain ⟨hnew, hrecords⟩ := h.created hcall
      { user, client, expiresAt := now + policy.maxAgeSeconds * 1000 } rfl rfl
    exact hnew.goesOn hid hrecords
  | recording previous grant refresh family =>
    rw [World.proceed]
    split
    · exact h.ends id
    · rename_i hnone
      obtain ⟨hnew, hcurrent⟩ := h.recordedPair hholds
        (not_isSome_iff_eq_none.mp hnone)
      exact hnew.answers id hcurrent
  | vetoing grant => exact (h.deleteGrants [grant]).ends id
  | revoking family reason =>
    exact (h.revoke reason ((Bool.not_eq_true' _).mp hkeeps)).goesOn hid trivial
  | listing family => exact h.goesOn hid trivial
  | deleting grants => exact (h.deleteGrants grants).ends id
  | disabling user reason =>
    refine (h.disable user).goesOn ?_ trivial
    rw [World.disable]
    split
    · exact hid
    · exact hid
  | revokingFamilies user reason =>
    have hwaits := (Bool.or_eq_true_iff.mp hkeeps).imp of_decide_eq_true (Bool.not_eq_true' _).mp
    exact (h.revokeFamilies reason hwaits).goesOn hid trivial
  | signingOut user => exact (h.signOut user).ends id

/-- **A step that is none of the two keeps what holds.** -/
theorem sound_step {action : Action} (h : Sound w) (hkeeps : action.keepsFamilies w = true)
    (hstep : step policy w action = some w') : Sound w' := by
  cases action with
  | tick now =>
    rw [step, ite_none_right_eq_some] at hstep
    obtain rfl := some.inj hstep.2
    exact h.calls ⟨rfl, rfl, rfl, rfl, rfl, rfl, rfl, rfl, rfl, rfl, rfl⟩
      (fun id call hcall => ⟨h.calls_lt id call hcall, .inl hcall⟩) fun _ => .inl
  | refresh token client | disable user reason =>
    cases hstep
    exact h.begin trivial
  | exchange user client offline =>
    cases hstep
    have hrefresh : ∀ token, (if offline then some w.nextToken else none) = some token →
        token = w.nextToken := by
      intro token htoken
      rw [ite_none_right_eq_some] at htoken
      exact (some.inj htoken.2).symm
    refine (h.issue user client hrefresh none).begin ⟨Nat.lt_succ_self _, fun row hrow => ?_,
      h.issueAlone user client hrefresh none⟩
    rw [issue_row hrow]
  | proceed id answer =>
    obtain ⟨call, hcall, rfl⟩ := map_eq_some_iff.mp hstep
    exact h.proceed hcall hkeeps

end Catamorphic.Identity.TokenFamilies
