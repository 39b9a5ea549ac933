import Mathlib.Logic.Function.Basic
import Catamorphic.Lib.Runs

/-!
# Refresh token families

A code exchange starts a family of refresh tokens, and each refresh rotates within its family:
the gate claims the token before the authorization server answers, and the pair it answered
with is recorded after that. Reuse of a rotated token, the maximum age, and a disabled account
revoke the family. Every statement of a call is a step, and so is each call of the
authorization server's store; a call that stops is not continued.
-/

namespace Catamorphic.Identity.TokenFamilies

open Function

abbrev UserId := Nat
abbrev ClientId := Nat
/-- A refresh token, known by its hash. -/
abbrev Token := Nat
abbrev GrantId := Nat
abbrev FamilyId := Nat
abbrev CallId := Nat

/-- Why a family was revoked. -/
inductive Reason
  | reuse
  | maxAge
  | account (reason : String)
  deriving DecidableEq

/-- A row of `work_token_families`. -/
structure Family where
  user : UserId
  client : ClientId
  expiresAt : Nat
  revoked : Option Reason := none

/-- A row of `work_refresh_tokens`. -/
structure RefreshToken where
  family : FamilyId
  grant : GrantId
  rotated : Bool := false

/-- An access token of the authorization server, and the refresh token it belongs with. -/
structure Grant where
  user : UserId
  client : ClientId
  refresh : Option Token
  deriving DecidableEq

/-- What the last disable of an account still owes. -/
inductive Owed
  | nothing
  /-- Its families are not revoked, and it is not signed out. -/
  | revocation
  | signOut
  deriving DecidableEq

/-- Where a call is: its next step. -/
inductive Call
  /-- `beforeRefresh` reads the token with its family. -/
  | reading (token : Token) (client : Option ClientId)
  | active (token : Token) (family : FamilyId) (user : UserId)
  | standing (token : Token) (family : FamilyId) (user : UserId)
  | claiming (token : Token) (family : FamilyId)
  /-- The authorization server reads the refresh token it is given. -/
  | exchanging (token : Token)
  /-- It found the token, of the grant with this sign-in. -/
  | issuing (token : Token) (user : UserId) (client : ClientId) (signIn : Option Nat)
  /-- `afterGrant` looks up the grant; a refresh names the previous token. -/
  | looking (previous : Option Token) (grant : GrantId) (refresh : Option Token)
  /-- It reads the previous token with its family. -/
  | rereading (previous : Token) (grant : GrantId) (refresh : Token)
  | superseding (previous : Token) (grant : GrantId) (refresh : Token) (family : FamilyId)
      (superseded : GrantId)
  /-- It asks whether the account of a code exchange stands. -/
  | admitting (grant : GrantId) (user : UserId) (client : ClientId) (refresh : Option Token)
      (now : Nat)
  | creating (grant : GrantId) (user : UserId) (client : ClientId) (refresh : Token) (now : Nat)
  | recording (previous : Option Token) (grant : GrantId) (refresh : Token) (family : FamilyId)
  /-- The issued grant is deleted, and the answer refused. -/
  | vetoing (grant : GrantId)
  /-- `revokeFamily` -/
  | revoking (family : FamilyId) (reason : Reason)
  | listing (family : FamilyId)
  | deleting (grants : List GrantId)
  /-- `disable` -/
  | disabling (user : UserId) (reason : String)
  | revokingFamilies (user : UserId) (reason : String)
  | signingOut (user : UserId)

/-- A token recorded with its grant. -/
structure Recorded where
  previous : Option Token
  grant : GrantId
  /-- Its family was revoked when it was recorded. -/
  late : Bool
  deriving DecidableEq

structure World where
  now : Nat
  disabled : UserId → Bool
  families : FamilyId → Option Family
  tokens : Token → Option RefreshToken
  /-- The authorization server's. -/
  grants : GrantId → Option Grant
  calls : CallId → Option Call
  nextFamily : FamilyId
  nextToken : Token
  nextGrant : GrantId
  nextCall : CallId
  /-- How often an account that was not disabled was. -/
  disables : UserId → Nat
  owed : UserId → Owed
  /-- The disables before the sign-in that a grant stems from, once it was checked. -/
  signIn : GrantId → Option Nat
  recorded : List Recorded
  /-- The grants whose token response was let through. -/
  answered : List GrantId

def empty (now : Nat) : World where
  now := now
  disabled := fun _ => false
  families := fun _ => none
  tokens := fun _ => none
  grants := fun _ => none
  calls := fun _ => none
  nextFamily := 0
  nextToken := 0
  nextGrant := 0
  nextCall := 0
  disables := fun _ => 0
  owed := fun _ => .nothing
  signIn := fun _ => none
  recorded := []
  answered := []

/-! ## Updates -/

def World.goesOn (w : World) (call : CallId) (next : Call) : World :=
  { w with calls := update w.calls call (some next) }

/-- The call ends. -/
def World.ends (w : World) (call : CallId) : World :=
  { w with calls := update w.calls call none }

/-- The call ends and the token response is let through. -/
def World.answers (w : World) (call : CallId) (grant : GrantId) : World :=
  { w.ends call with answered := w.answered ++ [grant] }

def World.begin (w : World) (call : Call) : World :=
  { w with calls := update w.calls w.nextCall (some call), nextCall := w.nextCall + 1 }

/-- `deleteGrants`, with their refresh tokens. -/
def World.deleteGrants (w : World) (ids : List GrantId) : World :=
  { w with grants := fun grant => if grant ∈ ids then none else w.grants grant }

/-- `update work_token_families set revoked_at … where revoked_at is null` -/
def World.revoke (w : World) (which : FamilyId → Family → Bool) (reason : Reason) : World :=
  { w with
    families := fun id => (w.families id).map fun family =>
      if which id family && family.revoked.isNone then { family with revoked := some reason }
      else family }

/-- The first transaction of `disable`. -/
def World.disable (w : World) (user : UserId) : World :=
  if w.disabled user then w
  else
    { w with
      disabled := update w.disabled user true
      disables := update w.disables user (w.disables user + 1)
      owed := update w.owed user .revocation }

def World.revokeFamilies (w : World) (user : UserId) (reason : String) : World :=
  { w.revoke (fun _ family => family.user = user) (.account reason) with
    owed := if w.owed user = .revocation then update w.owed user .signOut else w.owed }

/-- `signOutEverywhere` -/
def World.signOut (w : World) (user : UserId) : World :=
  { w with
    grants := fun grant => (w.grants grant).filter fun grant => grant.user ≠ user
    owed := if w.owed user = .signOut then update w.owed user .nothing else w.owed }

/-- A new token response. -/
def World.issue (w : World) (user : UserId) (client : ClientId) (refresh : Option Token)
    (signIn : Option Nat) : World :=
  { w with
    grants := update w.grants w.nextGrant (some ⟨user, client, refresh⟩)
    signIn := update w.signIn w.nextGrant signIn
    nextGrant := w.nextGrant + 1
    nextToken := w.nextToken + 1 }

def World.setToken (w : World) (token : Token) (row : RefreshToken) : World :=
  { w with tokens := update w.tokens token (some row) }

/-- An approved sign-in, which enables the account again. -/
def World.approve (w : World) (user : UserId) (grant : GrantId) : World :=
  { w with
    disabled := update w.disabled user false
    signIn := update w.signIn grant (some (w.disables user)) }

def World.createFamily (w : World) (family : Family) : World :=
  { w with
    families := update w.families w.nextFamily (some family)
    nextFamily := w.nextFamily + 1 }

/-- The family is revoked. -/
def World.isRevoked (w : World) (family : FamilyId) : Bool :=
  (w.families family).any fun family => family.revoked.isSome

def World.recordToken (w : World) (token : Token) (row : RefreshToken)
    (previous : Option Token) : World :=
  { w.setToken token row with
    recorded := w.recorded ++ [{ previous, grant := row.grant, late := w.isRevoked row.family }] }

/-- The grant of the authorization server that a refresh token belongs with. -/
def World.grantOf (w : World) (token : Token) : Option GrantId :=
  (List.range w.nextGrant).find? fun grant =>
    (w.grants grant).any fun grant => grant.refresh = some token

/-! ## Steps of the calls -/

/-- How long a family lasts. -/
structure Policy where
  maxAgeSeconds : Nat

/-- A call's next step; `answer` is what it is told from outside, where it asks. -/
def World.proceed (policy : Policy) (w : World) (id : CallId) (answer : Bool) : Call → World
  | .reading token client =>
    match w.tokens token with
    | none => w.ends id
    | some row =>
      match w.families row.family with
      | none => w.ends id
      | some family =>
        if row.rotated then w.goesOn id (.revoking row.family .reuse)
        else if family.revoked.isSome then w.ends id
        else if client.any (· ≠ family.client) then w.ends id
        else if family.expiresAt ≤ w.now then w.goesOn id (.revoking row.family .maxAge)
        else w.goesOn id (.active token row.family family.user)
  | .active token family user =>
    if w.disabled user then w.ends id else w.goesOn id (.standing token family user)
  | .standing token family user =>
    -- The directory, or a check of it that is recent, approves an account that is not disabled.
    if answer && !w.disabled user then w.goesOn id (.claiming token family) else w.ends id
  | .claiming token family =>
    match (w.tokens token).filter fun row => !row.rotated with
    | none => w.goesOn id (.revoking family .reuse)
    | some row => (w.setToken token { row with rotated := true }).goesOn id (.exchanging token)
  | .exchanging token =>
    match w.grantOf token with
    | none => w.ends id
    | some grant =>
      match w.grants grant with
      | none => w.ends id
      | some row =>
        if answer then w.goesOn id (.issuing token row.user row.client (w.signIn grant))
        else w.ends id
  | .issuing token user client signIn =>
    (w.issue user client (some w.nextToken) signIn).goesOn id
      (.looking (some token) w.nextGrant (some w.nextToken))
  | .looking previous grant refresh =>
    match w.grants grant with
    | none => w.answers id grant
    | some row =>
      match previous with
      | none => w.goesOn id (.admitting grant row.user row.client refresh w.now)
      | some previous =>
        match refresh with
        | none => w.answers id grant
        | some refresh => w.goesOn id (.rereading previous grant refresh)
  | .rereading previous grant refresh =>
    match w.tokens previous with
    | none => w.goesOn id (.vetoing grant)
    | some row =>
      match w.families row.family with
      | none => w.goesOn id (.vetoing grant)
      | some family =>
        if family.revoked.isSome then w.goesOn id (.vetoing grant)
        else w.goesOn id (.superseding previous grant refresh row.family row.grant)
  | .superseding previous grant refresh family superseded =>
    (w.deleteGrants [superseded]).goesOn id (.recording (some previous) grant refresh family)
  | .admitting grant user client refresh now =>
    if answer then
      match refresh with
      | none => (w.approve user grant).answers id grant
      | some refresh => (w.approve user grant).goesOn id (.creating grant user client refresh now)
    else w.goesOn id (.vetoing grant)
  | .creating grant user client refresh now =>
    (w.createFamily { user, client, expiresAt := now + policy.maxAgeSeconds * 1000 }).goesOn id
      (.recording none grant refresh w.nextFamily)
  | .recording previous grant refresh family =>
    -- The hash is the row's key.
    if (w.tokens refresh).isSome then w.ends id
    else
      (w.recordToken refresh { family, grant } previous).answers id grant
  | .vetoing grant => (w.deleteGrants [grant]).ends id
  | .revoking family reason =>
    (w.revoke (fun id _ => id = family) reason).goesOn id (.listing family)
  | .listing family =>
    w.goesOn id (.deleting ((List.range w.nextToken).filterMap fun token =>
      (w.tokens token).bind fun row => if row.family = family then some row.grant else none))
  | .deleting grants => (w.deleteGrants grants).ends id
  | .disabling user reason => (w.disable user).goesOn id (.revokingFamilies user reason)
  | .revokingFamilies user reason => (w.revokeFamilies user reason).goesOn id (.signingOut user)
  | .signingOut user => (w.signOut user).ends id

inductive Action
  | tick (now : Nat)
  /-- A token request with a refresh token. -/
  | refresh (token : Token) (client : Option ClientId)
  /-- The authorization server answered a code exchange, with a refresh token where asked. -/
  | exchange (user : UserId) (client : ClientId) (offline : Bool)
  | disable (user : UserId) (reason : String)
  | proceed (call : CallId) (answer : Bool)

def step (policy : Policy) (w : World) : Action → Option World
  | .tick now => if w.now ≤ now then some { w with now } else none
  | .refresh token client => some (w.begin (.reading token client))
  | .exchange user client offline =>
    let refresh := if offline then some w.nextToken else none
    some ((w.issue user client refresh none).begin (.looking none w.nextGrant refresh))
  | .disable user reason => some (w.begin (.disabling user reason))
  | .proceed call answer => (w.calls call).map (w.proceed policy call answer)

end Catamorphic.Identity.TokenFamilies
