import Mathlib.Data.List.Nodup
import Catamorphic.Identity.FamilySound

/-!
# Runs of the refresh token families

A token is claimed before the authorization server answers for it, by one call only, so no token
has two successors in any run. With what holds of the grants, this is what the families promise
of every run without the two orders of steps that break it.
-/

namespace Catamorphic.Identity.TokenFamilies

open Runs List Option

variable {w w' : World} {policy : Policy} {token : Token}

/-! ## One successor for each token -/

/-- The token that a call has claimed, and whose successor is not recorded. -/
def Call.claimed : Call → Option Token
  | .exchanging token => some token
  | .issuing token _ _ _ => some token
  | .looking previous _ _ => previous
  | .rereading previous _ _ => some previous
  | .superseding previous _ _ _ _ => some previous
  | .recording previous _ _ _ => previous
  | _ => none

def World.Rotated (w : World) (token : Token) : Prop :=
  ∃ row, w.tokens token = some row ∧ row.rotated = true

/-- The tokens with a recorded successor. -/
def World.succeeded (w : World) : List Token :=
  w.recorded.filterMap Recorded.previous

/-- A token is claimed by one call, and has no successor before. -/
structure Claimed (w : World) : Prop where
  rotated : ∀ id call token, w.calls id = some call → call.claimed = some token → w.Rotated token
  once : ∀ id id' call call' token, w.calls id = some call → w.calls id' = some call' →
    call.claimed = some token → call'.claimed = some token → id = id'
  succeeded : ∀ token ∈ w.succeeded, w.Rotated token
  unrecorded : ∀ id call token, w.calls id = some call → call.claimed = some token →
    token ∉ w.succeeded
  nodup : w.succeeded.Nodup

/-- A step in which no call claims a token and none is recorded. -/
structure Passes (w w' : World) : Prop where
  tokens : w'.tokens = w.tokens
  recorded : w'.recorded = w.recorded
  calls : ∀ id call token, w'.calls id = some call → call.claimed = some token →
    ∃ old, w.calls id = some old ∧ old.claimed = some token

theorem Passes.rotated (h : Passes w w') : w'.Rotated token ↔ w.Rotated token := by
  rw [World.Rotated, World.Rotated, h.tokens]

theorem Claimed.passes (h : Claimed w) (hp : Passes w w') : Claimed w' := by
  have hsucceeded : w'.succeeded = w.succeeded := by
    rw [World.succeeded, World.succeeded, hp.recorded]
  refine ⟨?_, ?_, ?_, ?_, hsucceeded ▸ h.nodup⟩
  · intro id call token hcall hclaimed
    obtain ⟨old, hold, hwas⟩ := hp.calls id call token hcall hclaimed
    exact hp.rotated.mpr (h.rotated id old token hold hwas)
  · intro id id' call call' token hcall hcall' hclaimed hclaimed'
    obtain ⟨old, hold, hwas⟩ := hp.calls id call token hcall hclaimed
    obtain ⟨old', hold', hwas'⟩ := hp.calls id' call' token hcall' hclaimed'
    exact h.once id id' old old' token hold hold' hwas hwas'
  · exact fun token htoken => hp.rotated.mpr (h.succeeded token (hsucceeded ▸ htoken))
  · intro id call token hcall hclaimed
    obtain ⟨old, hold, hwas⟩ := hp.calls id call token hcall hclaimed
    rw [hsucceeded]
    exact h.unrecorded id old token hold hwas

variable {w₁ : World} {id : CallId} {family : FamilyId} {grant : GrantId} {answer : Bool}

section

variable {call next : Call} (hcall : w.calls id = some call) (htokens : w₁.tokens = w.tokens)
  (hrecorded : w₁.recorded = w.recorded) (hcalls : w₁.calls = w.calls)
include hcall htokens hrecorded hcalls

/-- The call goes on with what it had claimed, after an update of other tables. -/
theorem passes_goesOn (hnext : ∀ token, next.claimed = some token → call.claimed = some token) :
    Passes w (w₁.goesOn id next) := by
  refine ⟨htokens, hrecorded, fun id' call' token hcall' hclaimed => ?_⟩
  rcases goesOn_calls hcall' with ⟨rfl, rfl⟩ | ⟨-, hold⟩
  · exact ⟨call, hcall, hnext token hclaimed⟩
  · exact ⟨call', hcalls ▸ hold, hclaimed⟩

/-- The call goes on with no claim. -/
theorem passes_drops (hnext : next.claimed = none) : Passes w (w₁.goesOn id next) := by
  refine passes_goesOn hcall htokens hrecorded hcalls fun token hclaimed => ?_
  rw [hnext] at hclaimed
  cases hclaimed

end

theorem passes_ends (htokens : w₁.tokens = w.tokens) (hrecorded : w₁.recorded = w.recorded)
    (hcalls : w₁.calls = w.calls) : Passes w (w₁.ends id) := by
  refine ⟨htokens, hrecorded, fun id' call token hcall hclaimed => ?_⟩
  exact ⟨call, hcalls ▸ (ends_calls hcall).2, hclaimed⟩

theorem passes_answers (htokens : w₁.tokens = w.tokens)
    (hrecorded : w₁.recorded = w.recorded) (hcalls : w₁.calls = w.calls) :
    Passes w (w₁.answers id grant) := by
  refine ⟨htokens, hrecorded, fun id' call token hcall hclaimed => ?_⟩
  exact ⟨call, hcalls ▸ (ends_calls hcall).2, hclaimed⟩

theorem passes_begin {new : Call} (htokens : w₁.tokens = w.tokens)
    (hrecorded : w₁.recorded = w.recorded) (hcalls : w₁.calls = w.calls)
      (hnew : new.claimed = none) :
    Passes w (w₁.begin new) := by
  refine ⟨htokens, hrecorded, fun id' call token hcall hclaimed => ?_⟩
  rcases begin_calls hcall with ⟨-, rfl⟩ | ⟨-, hold⟩
  · rw [hnew] at hclaimed
    cases hclaimed
  · exact ⟨call, hcalls ▸ hold, hclaimed⟩

/-- A token that is not rotated is claimed by no call, and has no successor. -/
theorem Claimed.claim {row : RefreshToken} (h : Claimed w)
    (hcall : w.calls id = some (.claiming token family)) (hrow : w.tokens token = some row)
    (hunrotated : row.rotated = false) :
    Claimed ((w.setToken token { row with rotated := true }).goesOn id (.exchanging token)) := by
  have hnot : ¬w.Rotated token := by
    rintro ⟨other, hother, hrotated⟩
    cases hrow.symm.trans hother
    rw [hunrotated] at hrotated
    cases hrotated
  have hself : (w.setToken token { row with rotated := true }).Rotated token :=
    ⟨_, Function.update_self .., rfl⟩
  have hstays : ∀ other, w.Rotated other →
      (w.setToken token { row with rotated := true }).Rotated other := by
    intro other hother
    by_cases hsame : other = token
    · exact hsame ▸ hself
    · obtain ⟨otherRow, hotherRow, hrotated⟩ := hother
      exact ⟨otherRow, (Function.update_of_ne hsame ..).trans hotherRow, hrotated⟩
  refine ⟨?_, ?_, fun other hother => hstays other (h.succeeded other hother), ?_, h.nodup⟩
  · intro id' call other hcall' hclaimed
    rcases goesOn_calls hcall' with ⟨-, rfl⟩ | ⟨-, hold⟩
    · exact some.inj hclaimed ▸ hself
    · exact hstays other (h.rotated id' call other hold hclaimed)
  · intro id₁ id₂ call₁ call₂ other hcall₁ hcall₂ hclaimed₁ hclaimed₂
    rcases goesOn_calls hcall₁ with ⟨rfl, rfl⟩ | ⟨-, hold₁⟩
    · rcases goesOn_calls hcall₂ with ⟨rfl, -⟩ | ⟨-, hold₂⟩
      · rfl
      · cases hclaimed₁
        exact absurd (h.rotated id₂ call₂ _ hold₂ hclaimed₂) hnot
    · rcases goesOn_calls hcall₂ with ⟨rfl, rfl⟩ | ⟨-, hold₂⟩
      · cases hclaimed₂
        exact absurd (h.rotated id₁ call₁ _ hold₁ hclaimed₁) hnot
      · exact h.once id₁ id₂ call₁ call₂ other hold₁ hold₂ hclaimed₁ hclaimed₂
  · intro id' call other hcall' hclaimed
    rcases goesOn_calls hcall' with ⟨-, rfl⟩ | ⟨-, hold⟩
    · cases hclaimed
      exact fun hother => hnot (h.succeeded _ hother)
    · exact h.unrecorded id' call other hold hclaimed

/-- The successor is recorded, and the call is over. -/
theorem Claimed.record {previous : Option Token} {refresh : Token} (h : Claimed w)
    (hcall : w.calls id = some (.recording previous grant refresh family))
    (hnone : w.tokens refresh = none) :
    Claimed ((w.recordToken refresh { family, grant } previous).answers id grant) := by
  have hstays : ∀ token, w.Rotated token →
      (w.recordToken refresh { family, grant } previous).Rotated token := by
    rintro token ⟨row, hrow, hrotated⟩
    refine ⟨row, (Function.update_of_ne ?_ ..).trans hrow, hrotated⟩
    rintro rfl
    rw [hnone] at hrow
    cases hrow
  have hsucceeded : ((w.recordToken refresh { family, grant } previous).answers id
    grant).succeeded =
      w.succeeded ++ previous.toList := by
    rw [World.succeeded, World.answers, World.recordToken]
    dsimp only [World.ends]
    rw [filterMap_append, World.succeeded]
    cases previous with
    | none => rfl
    | some previous => rfl
  have hclaimed : ∀ token, previous = some token → w.Rotated token ∧ token ∉ w.succeeded :=
    fun token htoken => ⟨h.rotated id _ token hcall htoken, h.unrecorded id _ token hcall htoken⟩
  refine ⟨?_, ?_, ?_, ?_, ?_⟩
  · intro id' call token hcall' hclaimed
    exact hstays token (h.rotated id' call token (ends_calls hcall').2 hclaimed)
  · intro id₁ id₂ call₁ call₂ token hcall₁ hcall₂
    exact h.once id₁ id₂ call₁ call₂ token (ends_calls hcall₁).2 (ends_calls hcall₂).2
  · intro token htoken
    rw [hsucceeded, mem_append, mem_toList] at htoken
    exact hstays token (htoken.elim (h.succeeded token) fun hnew => (hclaimed token hnew).1)
  · intro id' call token hcall' hclaims htoken
    obtain ⟨hne, hold⟩ := ends_calls hcall'
    rw [hsucceeded, mem_append, mem_toList] at htoken
    rcases htoken with hwas | hnew
    · exact h.unrecorded id' call token hold hclaims hwas
    · exact hne (h.once id' id call _ token hold hcall hclaims hnew)
  · rw [hsucceeded, nodup_append']
    refine ⟨h.nodup, toList_nodup previous, ?_⟩
    intro token hwas hnew
    exact (hclaimed token (mem_toList.mp hnew)).2 hwas

/-! ## Runs -/

theorem claimed_empty (now : Nat) : Claimed (empty now) := by
  refine ⟨nofun, nofun, nofun, nofun, nodup_nil⟩

/-- What a call does that neither claims a token nor records one. -/
theorem passes_proceed {id : CallId} {call : Call} (hcall : w.calls id = some call)
    (hclaims : ∀ token family, call ≠ .claiming token family)
    (hrecords : ∀ previous grant refresh family, call ≠ .recording previous grant refresh family) :
    Passes w (w.proceed policy id answer call) := by
  cases call with
  | reading token client =>
    rw [World.proceed]
    split
    · exact passes_ends rfl rfl rfl
    · split
      · exact passes_ends rfl rfl rfl
      · split_ifs
        · exact passes_drops hcall rfl rfl rfl rfl
        · exact passes_ends rfl rfl rfl
        · exact passes_ends rfl rfl rfl
        · exact passes_drops hcall rfl rfl rfl rfl
        · exact passes_drops hcall rfl rfl rfl rfl
  | active token family user =>
    rw [World.proceed]
    split
    · exact passes_ends rfl rfl rfl
    · exact passes_drops hcall rfl rfl rfl rfl
  | standing token family user =>
    rw [World.proceed]
    split
    · exact passes_drops hcall rfl rfl rfl rfl
    · exact passes_ends rfl rfl rfl
  | claiming token family => exact absurd rfl (hclaims token family)
  | exchanging token =>
    rw [World.proceed]
    split
    · exact passes_ends rfl rfl rfl
    · split
      · exact passes_ends rfl rfl rfl
      · split
        · exact passes_goesOn hcall rfl rfl rfl fun _ hclaimed => hclaimed
        · exact passes_ends rfl rfl rfl
  | issuing token user client signIn | superseding previous grant refresh family superseded =>
    exact passes_goesOn hcall rfl rfl rfl fun _ hclaimed => hclaimed
  | looking previous grant refresh =>
    rw [World.proceed]
    split
    · exact passes_answers rfl rfl rfl
    · cases previous with
      | none => exact passes_drops hcall rfl rfl rfl rfl
      | some previous =>
        cases refresh with
        | none => exact passes_answers rfl rfl rfl
        | some refresh => exact passes_goesOn hcall rfl rfl rfl fun _ hclaimed => hclaimed
  | rereading previous grant refresh =>
    rw [World.proceed]
    split
    · exact passes_drops hcall rfl rfl rfl rfl
    · split
      · exact passes_drops hcall rfl rfl rfl rfl
      · split
        · exact passes_drops hcall rfl rfl rfl rfl
        · exact passes_goesOn hcall rfl rfl rfl fun _ hclaimed => hclaimed
  | admitting grant user client refresh now =>
    cases answer with
    | false => exact passes_drops hcall rfl rfl rfl rfl
    | true =>
      cases refresh with
      | none => exact passes_answers rfl rfl rfl
      | some refresh => exact passes_drops hcall rfl rfl rfl rfl
  | creating grant user client refresh now | revoking family reason | listing family
  | revokingFamilies user reason => exact passes_drops hcall rfl rfl rfl rfl
  | recording previous grant refresh family =>
    exact absurd rfl (hrecords previous grant refresh family)
  | vetoing grant | deleting grants | signingOut user => exact passes_ends rfl rfl rfl
  | disabling user reason =>
    rw [World.proceed, World.disable]
    split
    · exact passes_drops hcall rfl rfl rfl rfl
    · exact passes_drops hcall rfl rfl rfl rfl

theorem Claimed.proceed {call : Call} (h : Claimed w)
    (hcall : w.calls id = some call) : Claimed (w.proceed policy id answer call) := by
  by_cases hclaims : ∃ token family, call = .claiming token family
  · obtain ⟨token, family, rfl⟩ := hclaims
    rw [World.proceed]
    split
    · exact h.passes (passes_drops hcall rfl rfl rfl rfl)
    · rename_i row hrow
      obtain ⟨hrow, hunrotated⟩ := filter_eq_some_iff.mp hrow
      exact h.claim hcall hrow ((Bool.not_eq_true' _).mp hunrotated)
  · by_cases hrecords : ∃ previous grant refresh family,
        call = .recording previous grant refresh family
    · obtain ⟨previous, grant, refresh, family, rfl⟩ := hrecords
      rw [World.proceed]
      split
      · exact h.passes (passes_ends rfl rfl rfl)
      · rename_i hnone
        exact h.record hcall (not_isSome_iff_eq_none.mp hnone)
    · exact h.passes (passes_proceed hcall (fun token family heq => hclaims ⟨token, family, heq⟩)
        fun previous grant refresh family heq => hrecords ⟨previous, grant, refresh, family, heq⟩)

/-- **No step gives a token a second successor.** -/
theorem claimed_step {action : Action} (h : Claimed w) (hstep : step policy w action = some w') :
    Claimed w' := by
  cases action with
  | tick now =>
    rw [step, ite_none_right_eq_some] at hstep
    obtain rfl := some.inj hstep.2
    exact h.passes ⟨rfl, rfl, fun _ call _ hcall hclaimed => ⟨call, hcall, hclaimed⟩⟩
  | refresh token client | exchange user client offline | disable user reason =>
    cases hstep
    exact h.passes (passes_begin rfl rfl rfl rfl)
  | proceed id answer =>
    obtain ⟨call, hcall, rfl⟩ := map_eq_some_iff.mp hstep
    exact h.proceed hcall

/--
In every run in which no family is revoked while a grant waits to be recorded in it, but by a
disable that signs the account out after it, and no account is enabled before it was signed out:
no token has two recorded successors; a grant that was recorded in a revoked family is gone, or
its account is disabled; and a grant that was let through and is there for an enabled account
stems from a sign-in after the last disable of the account.
-/
theorem families_of_runs {now : Nat}
    (h : Reach (step policy) (fun w action => action.keepsFamilies w = true) (empty now) w) :
    (w.recorded.filterMap Recorded.previous).Nodup ∧
      (∀ entry ∈ w.recorded, entry.late = true → ∀ grant, w.grants entry.grant = some grant →
        w.disabled grant.user = true) ∧
      ∀ id ∈ w.answered, ∀ grant, w.grants id = some grant → w.disabled grant.user = false →
        w.signIn id = some (w.disables grant.user) := by
  have hsound : Sound w := h.invariant (sound_empty now) fun _ _ _ => sound_step
  have hclaimed : Claimed w :=
    h.invariant (claimed_empty now) fun _ _ _ hclaimed _ => claimed_step hclaimed
  refine ⟨hclaimed.nodup, fun entry hentry hlate grant hgrant => ?_,
    fun id hid grant hgrant hactive => ?_⟩
  · exact hsound.owed grant.user ((hsound.recorded entry hentry).2 hlate grant hgrant)
  · refine ((hsound.answered id hid).2 grant hgrant).resolve_right fun howed => ?_
    rw [hsound.owed grant.user howed] at hactive
    cases hactive

/-- A sign-in with a refresh token, and a refresh of it to the second look at the family. -/
def refreshingRun : List Action :=
  .exchange 0 0 true :: List.replicate 4 (.proceed 0 true) ++
    .refresh 0 (some 0) :: List.replicate 8 (.proceed 1 true)

theorem families_of_runs_refreshingRun :
    ∃ w, execOk (step ⟨3600⟩) (fun w action => action.keepsFamilies w = true) (empty 0)
        (refreshingRun ++ [.proceed 1 true, .proceed 1 true]) = some w ∧
      w.recorded.map Recorded.previous = [none, some 0] ∧
      (w.recorded.filterMap Recorded.previous).Nodup ∧
      (∀ entry ∈ w.recorded, entry.late = true → ∀ grant, w.grants entry.grant = some grant →
        w.disabled grant.user = true) ∧
      ∀ id ∈ w.answered, ∀ grant, w.grants id = some grant → w.disabled grant.user = false →
        w.signIn id = some (w.disables grant.user) := by
  have hrun : (execOk (step ⟨3600⟩) (fun w action => action.keepsFamilies w = true) (empty 0)
      (refreshingRun ++ [.proceed 1 true, .proceed 1 true])).map
        (fun w => w.recorded.map Recorded.previous) = some [none, some 0] := by
    decide +kernel
  obtain ⟨w, hw, hrecorded⟩ := map_eq_some_iff.mp hrun
  exact ⟨w, hw, hrecorded, families_of_runs (reach_of_execOk hw)⟩

/--
A replay of the rotated token revokes the family and lists its grants before the refresh records
its pair: the new grant stays. A sign-in between the steps of a disable enables the account with
the grant from before.
-/
theorem family_left :
    (∃ w, exec (step ⟨3600⟩) (empty 0) (refreshingRun ++ [.refresh 0 (some 0), .proceed 2 true,
        .proceed 2 true, .proceed 2 true, .proceed 1 true, .proceed 1 true, .proceed 2 true]) =
          some w ∧
      ⟨some 0, 1, true⟩ ∈ w.recorded ∧ 1 ∈ w.answered ∧ w.grants 1 = some ⟨0, 0, some 1⟩ ∧
      w.disabled 0 = false) ∧
    ∃ w, exec (step ⟨3600⟩) (empty 0) (.exchange 0 0 true :: List.replicate 4 (.proceed 0 true) ++
        [.disable 0 "left", .proceed 1 true, .exchange 0 0 false, .proceed 2 true,
          .proceed 2 true]) = some w ∧
      0 ∈ w.answered ∧ w.grants 0 = some ⟨0, 0, some 0⟩ ∧ w.disabled 0 = false ∧
      w.signIn 0 = some 0 ∧ w.disables 0 = 1 := by
  have hreplay : (exec (step ⟨3600⟩) (empty 0) (refreshingRun ++ [.refresh 0 (some 0),
      .proceed 2 true, .proceed 2 true, .proceed 2 true, .proceed 1 true, .proceed 1 true,
      .proceed 2 true])).map (fun w => (w.recorded, w.answered, w.grants 1, w.disabled 0)) =
      some ([⟨none, 0, false⟩, ⟨some 0, 1, true⟩], [0, 1], some ⟨0, 0, some 1⟩, false) := by
    decide +kernel
  have henabled : (exec (step ⟨3600⟩) (empty 0)
      (.exchange 0 0 true :: List.replicate 4 (.proceed 0 true) ++ [.disable 0 "left",
        .proceed 1 true, .exchange 0 0 false, .proceed 2 true, .proceed 2 true])).map
      (fun w => (w.answered, w.grants 0, w.disabled 0, w.signIn 0, w.disables 0)) =
      some ([0, 1], some ⟨0, 0, some 0⟩, false, some 0, 1) := by
    decide +kernel
  obtain ⟨w, hw, hleft⟩ := map_eq_some_iff.mp hreplay
  obtain ⟨w', hw', hleft'⟩ := map_eq_some_iff.mp henabled
  simp only [Prod.mk.injEq] at hleft hleft'
  obtain ⟨hrecorded, hanswered, hgrant, hactive⟩ := hleft
  obtain ⟨hanswered', hgrant', hactive', hsign, hdisables⟩ := hleft'
  refine ⟨⟨w, hw, ?_, ?_, hgrant, hactive⟩, w', hw', ?_, hgrant', hactive', hsign, hdisables⟩
  · rw [hrecorded]
    exact mem_cons_of_mem _ mem_cons_self
  · rw [hanswered]
    exact mem_cons_of_mem _ mem_cons_self
  · rw [hanswered']
    exact mem_cons_self

end Catamorphic.Identity.TokenFamilies
