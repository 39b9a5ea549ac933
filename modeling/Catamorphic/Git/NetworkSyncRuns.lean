import Catamorphic.Git.NetworkSync

/-!
# A synchronization drops no local work

Whatever the relation between a checkout and its remote, no step of a synchronization takes a
commit from under the local branches or touches a working tree with uncommitted changes, and
nothing goes to an attached remote outside `work/`. The decisions are taken from what was read
once and the writes are forced, so a run is restricted to the steps whose reading still
stands: the branch is where it was read, and no edit came after the tree was found clean.
-/

namespace Catamorphic.Git.NetworkSync

open Runs History Function List Option

variable {Tree : Type}

/-- What a forced write was decided from still stands where it is made. -/
def CurrentAt (w : World Tree) : Point → Prop
  | .forcing localSha _ _ => w.refs "main" = some localSha
  | .joining ours _ _ => w.refs "main" = some ours
  | .checkingOut edits _ | .nativeMerging _ edits => w.edits = edits ∨ w.work = w.baseline
  | _ => True

instance [DecidableEq Tree] (w : World Tree) : ∀ point, Decidable (CurrentAt w point)
  | .forcing localSha _ _ => inferInstanceAs (Decidable (w.refs "main" = some localSha))
  | .joining ours _ _ => inferInstanceAs (Decidable (w.refs "main" = some ours))
  | .checkingOut edits _ | .nativeMerging _ edits =>
    inferInstanceAs (Decidable (w.edits = edits ∨ w.work = w.baseline))
  | .started | .onMain | .located _ | .fetched .. | .checking .. | .merging .. | .pushing ..
  | .nativeLocated .. | .nativeFetched .. | .nativeChecking .. => inferInstanceAs (Decidable True)

def Current (w : World Tree) : Action Tree → Prop
  | .advance | .mergeAs _ | .overlay _ => ∀ sync ∈ w.sync, CurrentAt w sync.2
  | _ => True

instance [DecidableEq Tree] (w : World Tree) : ∀ action, Decidable (Current w action)
  | .advance | .mergeAs _ | .overlay _ =>
    inferInstanceAs (Decidable (∀ sync ∈ w.sync, CurrentAt w sync.2))
  | .commit .. | .edit _ | .publish .. | .remoteMoves .. | .begin _ | .fail =>
    inferInstanceAs (Decidable True)

/-- A local branch has the commit. -/
def World.holds (w : World Tree) (sha : Sha) : Prop := Held (parentsOf w.commits) w.refs sha

/-- Unless edits came since so many, the tree is clean. -/
def World.untouched (w : World Tree) (edits : Nat) : Prop :=
  edits ≤ w.edits ∧ (w.edits = edits → w.work = w.baseline)

/-- What a synchronization knows where it stands. -/
def Known (w : World Tree) : Point → Prop
  | .checking localSha remoteSha behind =>
    behind = true → Before (parentsOf w.commits) localSha remoteSha
  | .forcing localSha remoteSha edits =>
    Before (parentsOf w.commits) localSha remoteSha ∧ w.untouched edits
  | .merging _ edits | .joining _ _ edits | .checkingOut edits _ => w.untouched edits
  | .nativeMerging _ edits =>
    w.untouched edits ∧ (w.refs w.branch).bind w.treeOf = some w.baseline
  | _ => True

structure Inv (w : World Tree) : Prop where
  known : ∀ opts point, w.sync = some (opts, point) → Known w point
  managed : ∀ push ∈ w.pushed, push.1 = .attached → isManagedBranch push.2 = true

/-- What a step keeps: the commits under local branches, and a tree with changes. -/
structure Keeps (w w' : World Tree) : Prop where
  holds : ∀ sha, w.holds sha → w'.holds sha
  work : w.work ≠ w.baseline → w'.work = w.work

variable {w w' : World Tree} {opts : Options} {point : Point}

/-- Where branches and files stay, nothing is lost. -/
theorem Keeps.of_same (hcommits : w'.commits = w.commits) (hrefs : w'.refs = w.refs)
    (hwork : w'.work = w.work) : Keeps w w' := by
  refine ⟨fun sha h => ?_, fun _ => hwork⟩
  rw [World.holds, hcommits, hrefs]
  exact h

variable {commits : Sha → Option (Commit Tree)} {sha : Sha} {commit : Commit Tree}

/-! ## New commits -/

/-- Commits that are added keep the parents of the others. -/
theorem parentsOf_update (hnew : commits sha = none) (commit : Commit Tree) (v : Sha) :
    parentsOf commits v ⊆ parentsOf (update commits sha (some commit)) v := by
  by_cases hv : v = sha
  · subst hv
    rw [parentsOf, hnew]
    exact nil_subset _
  · rw [parentsOf, parentsOf, update_of_ne hv]
    exact List.Subset.refl _

theorem parentsOf_update_self (commits : Sha → Option (Commit Tree)) (sha : Sha)
    (commit : Commit Tree) : parentsOf (update commits sha (some commit)) sha = commit.parents := by
  rw [parentsOf, update_self]
  rfl

/-- A branch that moves to a new commit after its tip loses nothing. -/
theorem holds_commit (hnew : w.commits sha = none) {branch : String}
    (hafter : ∀ tip ∈ w.refs branch, tip ∈ commit.parents) {other : Sha} (h : w.holds other) :
    Held (parentsOf (update w.commits sha (some commit)))
      (update w.refs branch (some sha)) other := by
  refine (Held.mono h (parentsOf_update hnew commit)).move fun tip htip => ?_
  refine Before.of_parent ?_
  rw [parentsOf_update_self]
  exact hafter tip htip

/-- The known commits' trees stay. -/
theorem treeOf_update {tip : Sha} {tree : Tree} (hnew : commits sha = none) (commit : Commit Tree)
    (h : (commits tip).map Commit.tree = some tree) :
    (update commits sha (some commit) tip).map Commit.tree = some tree := by
  by_cases htip : tip = sha
  · subst htip
    rw [hnew] at h
    cases h
  · rwa [update_of_ne htip]

/-! ## What goes on beside a synchronization -/

/-- What a synchronization knows survives what only adds commits. -/
theorem Known.grow (h : Known w point)
    (hparents : ∀ sha, parentsOf w.commits sha ⊆ parentsOf w'.commits sha)
    (huntouched : ∀ edits, w.untouched edits → w'.untouched edits)
    (hbaseline : (w.refs w.branch).bind w.treeOf = some w.baseline →
      (w'.refs w'.branch).bind w'.treeOf = some w'.baseline) : Known w' point := by
  cases point with
  | checking localSha remoteSha behind => exact fun hbehind => Before.mono (h hbehind) hparents
  | forcing localSha remoteSha edits => exact ⟨h.1.mono hparents, huntouched edits h.2⟩
  | merging remoteSha edits | joining ours remoteSha edits | checkingOut edits merged =>
    exact huntouched edits h
  | nativeMerging remoteSha edits => exact ⟨huntouched edits h.1, hbaseline h.2⟩
  | started | onMain | located | fetched | pushing | nativeLocated | nativeFetched
  | nativeChecking => trivial

theorem inv_commit (h : Inv w) (hnew : w.commits sha = none)
    (htree : w.work = w.baseline → commit.tree = w.work) : Inv { w with
      commits := update w.commits sha (some commit)
      refs := update w.refs w.branch (some sha)
      baseline := commit.tree } where
  known := fun opts point hsync => by
    refine (h.known opts point hsync).grow (parentsOf_update hnew commit) ?_ fun _ => ?_
    · exact fun edits huntouched =>
        ⟨huntouched.1, fun hedits => (htree (huntouched.2 hedits)).symm⟩
    · simp only [update_self, bind_some, World.treeOf, map_some]
  managed := h.managed

theorem inv_edit (h : Inv w) (work : Tree) : Inv { w with work, edits := w.edits + 1 } where
  known := fun opts point hsync => by
    refine (h.known opts point hsync).grow (fun _ => List.Subset.refl _) ?_ id
    intro edits huntouched
    have hle := huntouched.1
    refine ⟨Nat.le_succ_of_le hle, fun hedits => ?_⟩
    dsimp only at hedits
    omega
  managed := h.managed

theorem inv_publish (h : Inv w) (hnew : w.commits sha = none) :
    Inv { w with commits := update w.commits sha (some commit) } where
  known := fun opts point hsync => by
    refine (h.known opts point hsync).grow (parentsOf_update hnew commit)
      (fun _ huntouched => huntouched) fun hbaseline => ?_
    obtain ⟨tip, htip, htree⟩ := bind_eq_some_iff.mp hbaseline
    exact bind_eq_some_iff.mpr ⟨tip, htip, treeOf_update hnew commit htree⟩
  managed := h.managed

/-! ## One step of a synchronization -/

/-- The synchronization ends or goes on to a point with nothing written. -/
theorem inv_at (h : Inv w) (hknown : Known w point) : Inv (w.at opts point) where
  known := fun _ _ hsync => by
    cases hsync
    exact hknown
  managed := h.managed

theorem at_keeps (h : Inv w) (hpoint : Known w point) :
    Inv (w.at opts point) ∧ Keeps w (w.at opts point) :=
  ⟨inv_at h hpoint, .of_same rfl rfl rfl⟩

theorem done_keeps (h : Inv w) : Inv w.done ∧ Keeps w w.done :=
  ⟨⟨nofun, h.managed⟩, .of_same rfl rfl rfl⟩

/-- A push of what the one rule lets through. -/
theorem inv_pushing (h : Inv w) {ref remoteBranch : String}
    (hmay : mayPush opts.ownership ref remoteBranch false = true) (remote : String → Option Sha) :
    Inv { w.done with remote, pushed := w.pushed ++ [(opts.ownership, remoteBranch)] } where
  known := nofun
  managed := fun push hpush hattached => by
    rcases mem_append.mp hpush with hpush | hpush
    · exact h.managed push hpush hattached
    · obtain rfl := mem_singleton.mp hpush
      dsimp only at hattached ⊢
      rw [mayPush, Bool.and_eq_true, assertPushAllowed, hattached] at hmay
      simpa using hmay.2

section Advance

variable {isDescendent : (Sha → Option (Commit Tree)) → Sha → Sha → Bool}

theorem inv_compareTips (h : Inv w)
    (hsound : ∀ commits oid ancestor, isDescendent commits oid ancestor = true →
      Before (parentsOf commits) ancestor oid) (localSha : Sha) (remoteSha : Option Sha) :
    Inv (compareTips isDescendent w opts localSha remoteSha) ∧
      Keeps w (compareTips isDescendent w opts localSha remoteSha) := by
  unfold compareTips
  split
  · split
    · exact done_keeps h
    · exact at_keeps h trivial
  · split
    · exact done_keeps h
    · split
      · split
        · exact done_keeps h
        · exact at_keeps h trivial
      · dsimp only
        split
        · exact done_keeps h
        · exact at_keeps h (hsound _ _ _)

theorem inv_compareTipsNative (h : Inv w) (localSha : Sha) (target : String)
    (remoteSha : Option Sha) :
    Inv (compareTipsNative isDescendent w opts localSha target remoteSha) ∧
      Keeps w (compareTipsNative isDescendent w opts localSha target remoteSha) := by
  have hpush : Inv (if opts.ownership ≠ .owned then w.done else w.at opts
    (.pushing w.branch target)) ∧
      Keeps w (if opts.ownership ≠ .owned then w.done else w.at opts
        (.pushing w.branch target)) := by
    split
    · exact done_keeps h
    · exact at_keeps h trivial
  unfold compareTipsNative
  dsimp only
  split
  · exact hpush
  · split
    · exact done_keeps h
    · split
      · exact hpush
      · split
        · exact done_keeps h
        · exact at_keeps h trivial

variable [DecidableEq Tree]

theorem not_dirty (h : ¬w.dirty = true) : (w.refs w.branch).bind w.treeOf = some w.work := by
  rw [World.dirty, decide_eq_true_eq, not_not] at h
  exact h

section

variable (h : Inv w) (hsound : ∀ commits oid ancestor, isDescendent commits oid ancestor = true →
  Before (parentsOf commits) ancestor oid)
include h hsound

/-- **One step of a synchronization keeps local work**, where what it was decided from stands. -/
theorem inv_advance (hsync : w.sync = some (opts, point))
    (hcurrent : CurrentAt w point) (hstep : advance isDescendent w opts point = some w') :
    Inv w' ∧ Keeps w w' := by
  have hknown := h.known opts point hsync
  cases point with
  | started =>
    rw [advance] at hstep
    split at hstep
    · split at hstep
      · cases hstep
        exact done_keeps h
      · split at hstep <;> cases hstep
        · exact done_keeps h
        · exact at_keeps h trivial
    · split at hstep <;> cases hstep
      · exact done_keeps h
      · exact at_keeps h trivial
  | onMain =>
    rw [advance] at hstep
    split at hstep <;> cases hstep
    · exact done_keeps h
    · exact at_keeps h trivial
  | located localSha | nativeLocated localSha target =>
    cases hstep
    exact at_keeps h trivial
  | fetched localSha remoteSha =>
    cases hstep
    exact inv_compareTips h hsound localSha remoteSha
  | checking localSha remoteSha behind =>
    rw [advance] at hstep
    split at hstep
    · cases hstep
      exact done_keeps h
    · split at hstep <;> cases hstep
      · rename_i hbehind
        refine ⟨⟨?_, h.managed⟩, .of_same rfl rfl rfl⟩
        intro _ _ hpoint
        cases hpoint
        exact ⟨hknown hbehind, Nat.le_refl _, fun _ => rfl⟩
      · refine ⟨⟨?_, h.managed⟩, .of_same rfl rfl rfl⟩
        intro _ _ hpoint
        cases hpoint
        exact ⟨Nat.le_refl _, fun _ => rfl⟩
  | forcing localSha remoteSha edits =>
    cases hstep
    refine ⟨⟨?_, h.managed⟩, fun sha hsha => ?_, fun _ => rfl⟩
    · intro _ _ hpoint
      cases hpoint
      exact hknown.2
    · refine Held.move hsha fun old hold => ?_
      cases hcurrent.symm.trans hold
      exact hknown.1
  | merging remoteSha edits =>
    rw [advance] at hstep
    split at hstep <;> cases hstep
    · exact done_keeps h
    · exact at_keeps h hknown
  | joining ours remoteSha edits => cases hstep
  | checkingOut edits merged =>
    rw [advance] at hstep
    have hclean : w.work = w.baseline := hcurrent.elim hknown.2 id
    split at hstep
    · cases hstep
      exact done_keeps h
    · split at hstep <;> cases hstep
      · refine ⟨⟨?_, h.managed⟩, fun _ hsha => hsha, absurd hclean⟩
        intro _ _ hpoint
        cases hpoint
        trivial
      · exact ⟨⟨nofun, h.managed⟩, fun _ hsha => hsha, absurd hclean⟩
  | pushing ref remoteBranch =>
    rw [advance] at hstep
    split at hstep <;> cases hstep
    · rename_i hmay
      exact ⟨inv_pushing h hmay _, .of_same rfl rfl rfl⟩
    · exact done_keeps h
  | nativeFetched localSha target remoteSha =>
    cases hstep
    exact inv_compareTipsNative h localSha target remoteSha
  | nativeChecking localSha remoteSha =>
    rw [advance] at hstep
    split at hstep <;> cases hstep
    · exact done_keeps h
    · rename_i hclean
      refine ⟨⟨?_, h.managed⟩, .of_same rfl rfl rfl⟩
      intro _ _ hpoint
      cases hpoint
      exact ⟨⟨Nat.le_refl _, fun _ => rfl⟩, not_dirty hclean⟩
  | nativeMerging remoteSha edits =>
    rw [advance] at hstep
    split at hstep
    · rename_i head tree hhead htree
      split at hstep
      · rename_i hafter
        split at hstep
        · cases hstep
        · rename_i hdirty
          cases hstep
          have hclean : w.work = w.baseline :=
            some.inj ((not_dirty hdirty).symm.trans hknown.2)
          refine ⟨⟨nofun, h.managed⟩, fun sha hsha => ?_, fun hne => absurd hclean hne⟩
          refine Held.move hsha fun old hold => ?_
          cases hhead.symm.trans hold
          rcases hafter with rfl | hafter
          · exact .refl _
          · exact hsound _ _ _ hafter
      · cases hstep
        exact done_keeps h
    · cases hstep
      exact done_keeps h

/-- **Every step keeps local work**, of the synchronization and beside it. -/
theorem inv_step {action : Action Tree}
    (hcurrent : Current w action) (hstep : step isDescendent w action = some w') :
    Inv w' ∧ (∀ sha, w.holds sha → w'.holds sha) ∧
      ((∀ work, action ≠ .edit work) → w.work ≠ w.baseline → w'.work = w.work) := by
  cases action with
  | commit sha commit =>
    rw [step, ite_none_right_eq_some, some.injEq] at hstep
    obtain ⟨⟨hnew, hafter, htree⟩, rfl⟩ := hstep
    exact ⟨inv_commit h hnew htree, fun _ => holds_commit hnew hafter, fun _ _ => rfl⟩
  | edit work =>
    cases hstep
    exact ⟨inv_edit h work, fun _ hsha => hsha, fun hne => absurd rfl (hne work)⟩
  | publish sha commit =>
    rw [step, ite_none_right_eq_some, some.injEq] at hstep
    obtain ⟨hnew, rfl⟩ := hstep
    exact ⟨inv_publish h hnew, fun _ hsha => Held.mono hsha (parentsOf_update hnew commit),
      fun _ _ => rfl⟩
  | remoteMoves branch sha =>
    cases hstep
    exact ⟨⟨h.known, h.managed⟩, fun _ hsha => hsha, fun _ _ => rfl⟩
  | begin opts =>
    rw [step, ite_none_right_eq_some, some.injEq] at hstep
    obtain ⟨_, rfl⟩ := hstep
    exact ⟨inv_at h trivial, fun _ hsha => hsha, fun _ _ => rfl⟩
  | advance =>
    rw [step, bind_eq_some_iff] at hstep
    obtain ⟨⟨opts, point⟩, hsync, hstep⟩ := hstep
    obtain ⟨hinv, hkeeps⟩ := inv_advance h hsound hsync (hcurrent _ hsync) hstep
    exact ⟨hinv, hkeeps.holds, fun _ => hkeeps.work⟩
  | mergeAs outcome =>
    rw [step] at hstep
    split at hstep
    · rename_i opts ours remoteSha edits hsync
      have hmain : w.refs "main" = some ours := hcurrent _ hsync
      have hknown : w.untouched edits := h.known _ _ hsync
      cases outcome with
      | contained sha =>
        rw [ite_none_right_eq_some, some.injEq] at hstep
        obtain ⟨hcontained, rfl⟩ := hstep
        refine ⟨⟨?_, h.managed⟩, fun other hother => ?_, fun _ _ => rfl⟩
        · intro _ _ hpoint
          cases hpoint
          exact hknown
        · refine Held.move hother fun old hold => ?_
          cases hmain.symm.trans hold
          rcases hcontained with ⟨rfl, _⟩ | ⟨rfl, hdescends⟩
          · exact .refl _
          · exact hsound _ _ _ hdescends
      | merged sha tree =>
        rw [ite_none_right_eq_some, some.injEq] at hstep
        obtain ⟨hnew, rfl⟩ := hstep
        refine ⟨⟨?_, h.managed⟩, fun other => holds_commit hnew fun tip htip => ?_,
          fun _ _ => rfl⟩
        · intro _ _ hpoint
          cases hpoint
          exact hknown
        · cases hmain.symm.trans htip
          exact mem_cons_self
      | conflict =>
        cases hstep
        exact ⟨inv_at h trivial, fun _ hsha => hsha, fun _ _ => rfl⟩
    · cases hstep
  | overlay work =>
    rw [step] at hstep
    split at hstep
    · rename_i opts remoteSha edits hsync
      rw [ite_none_right_eq_some, some.injEq] at hstep
      obtain ⟨⟨hdirty, _⟩, rfl⟩ := hstep
      -- Edits came after the tree was found clean, which the run rules out.
      have hknown := h.known _ _ hsync
      have hclean : w.work = w.baseline := (hcurrent _ hsync).elim hknown.1.2 id
      rw [World.dirty, decide_eq_true_eq, hclean] at hdirty
      exact absurd hknown.2 hdirty
    · cases hstep
  | fail =>
    rw [step, ite_none_right_eq_some, some.injEq] at hstep
    obtain ⟨_, rfl⟩ := hstep
    exact ⟨(done_keeps h).1, fun _ hsha => hsha, fun _ _ => rfl⟩

end

/--
**Synchronizing drops no local work**, where what a forced write was decided from still stands
when it is made: in every run from any checkout and remote, no step takes a commit from under
the local branches or touches a working tree with uncommitted changes, and an attached remote
gets nothing outside `work/`.
-/
theorem sync_keeps_work (isDescendent : (Sha → Option (Commit Tree)) → Sha → Sha → Bool)
    (hsound : ∀ commits oid ancestor, isDescendent commits oid ancestor = true →
      Before (parentsOf commits) ancestor oid) {w₀ : World Tree} (hidle : w₀.sync = none)
    (hpushed : w₀.pushed = []) (h : Reach (step isDescendent) Current w₀ w) :
    (∀ sha, w₀.holds sha → w.holds sha) ∧
      (∀ action w', Current w action → step isDescendent w action = some w' →
        (∀ sha, w.holds sha → w'.holds sha) ∧
          ((∀ work, action ≠ .edit work) → w.work ≠ w.baseline → w'.work = w.work)) ∧
      ∀ push ∈ w.pushed, push.1 = .attached → isManagedBranch push.2 = true := by
  have hinitial : Inv w₀ := by
    refine ⟨fun _ _ hsync => ?_, fun push hpush => ?_⟩
    · rw [hidle] at hsync
      cases hsync
    · rw [hpushed] at hpush
      cases hpush
  obtain ⟨hinv, hkept⟩ : Inv w ∧ ∀ sha, w₀.holds sha → w.holds sha :=
    h.invariant (I := fun w => Inv w ∧ ∀ sha, w₀.holds sha → w.holds sha)
      ⟨hinitial, fun _ hsha => hsha⟩ fun _ _ _ hinv hcurrent hstep => by
        obtain ⟨hinv', hholds, _⟩ := inv_step hinv.1 hsound hcurrent hstep
        exact ⟨hinv', fun sha hsha => hholds sha (hinv.2 sha hsha)⟩
  exact ⟨hkept, fun action w' hcurrent hstep => (inv_step hinv hsound hcurrent hstep).2,
    hinv.managed⟩

end Advance

/-! ## Runs on small checkouts -/

/-- A search over the parents, so far. -/
def findsWithin (commits : Sha → Option (Commit Tree)) (ancestor : Sha) : Nat → Sha → Bool
  | 0, _ => false
  | fuel + 1, oid =>
    (parentsOf commits oid).any fun parent =>
      parent = ancestor || findsWithin commits ancestor fuel parent

theorem before_of_findsWithin {ancestor : Sha} :
    ∀ {fuel : Nat} {oid : Sha}, findsWithin commits ancestor fuel oid = true →
      Before (parentsOf commits) ancestor oid
  | 0, _, h => by cases h
  | fuel + 1, oid, h => by
    obtain ⟨parent, hparent, h⟩ := any_eq_true.mp h
    refine Before.trans ?_ (Before.of_parent hparent)
    rcases Bool.or_eq_true_iff.mp h with h | h
    · obtain rfl := of_decide_eq_true h
      exact .refl _
    · exact before_of_findsWithin h

/-- The remote has `b` after the checkout's `a`. -/
def behindWorld : World Nat where
  commits := fun sha =>
    if sha = ['a'] then some ⟨0, []⟩ else if sha = ['b'] then some ⟨1, [['a']]⟩ else none
  branch := "main"
  refs := fun name => if name = "main" then some ['a'] else none
  upstream := fun _ => none
  work := 0
  baseline := 0
  edits := 0
  remote := fun name => if name = "main" then some ['b'] else none
  pushed := []
  sync := none

def behindOptions : Options where
  native := false
  remoteBranch := "main"
  ownership := .attached
  now := ⟨2024, 1, 2, 3, 4⟩

def stepWithin : World Nat → Action Nat → Option (World Nat) :=
  step fun commits oid ancestor => findsWithin commits ancestor 3 oid

/-- The checkout is pulled up, with the commit it had. -/
theorem sync_keeps_work_pulled :
    ∃ w : World Nat, w.refs "main" = some ['b'] ∧ w.work = 1 ∧ w.sync.isNone = true ∧
      (∀ sha, behindWorld.holds sha → w.holds sha) ∧
      ∀ push ∈ w.pushed, push.1 = .attached → isManagedBranch push.2 = true := by
  have hrun : (execOk stepWithin Current behindWorld
      (.begin behindOptions :: List.replicate 7 .advance)).map
        (fun w => (w.refs "main", w.work, w.sync.isNone)) = some (some ['b'], 1, true) := by
    decide +kernel
  obtain ⟨w, hw, hread⟩ := map_eq_some_iff.mp hrun
  simp only [Prod.mk.injEq] at hread
  obtain ⟨hkept, _, hmanaged⟩ := sync_keeps_work _ (fun _ _ _ => before_of_findsWithin) rfl rfl
    (reach_of_execOk hw)
  exact ⟨w, hread.1, hread.2.1, hread.2.2, hkept, hmanaged⟩

/-- The checkout's `c` came after `a` while `main` was about to be forced to the remote's `b`. -/
def committedWorld : World Nat :=
  { behindWorld.foundClean.at behindOptions (.forcing ['a'] ['b'] 0) with
    commits := update behindWorld.commits ['c'] (some ⟨0, [['a']]⟩)
    refs := update behindWorld.refs "main" (some ['c']) }

/-- Neither of the commits there were, nor what stands before them, is the new one. -/
theorem not_held_committed {names : String → Option Sha}
    (hnames : ∀ name, ∀ tip ∈ names name, tip = ['a'] ∨ tip = ['b']) :
    ¬Held (parentsOf committedWorld.commits) names ['c'] := by
  rintro ⟨name, tip, htip, hbefore⟩
  have hinside := hbefore.mem (I := fun sha => sha = ['a'] ∨ sha = ['b']) (hnames name tip htip)
    (by
      rintro sha (rfl | rfl) parent hparent
      · cases hparent
      · exact .inl (mem_singleton.mp hparent))
  simp at hinside

/-- A commit made between reading `main` and forcing it is on no branch afterwards. -/
theorem sync_drops_commit : ∃ w', Reach stepWithin anyEvent behindWorld committedWorld ∧
      stepWithin committedWorld .advance = some w' ∧ committedWorld.holds ['c'] ∧
      ¬w'.holds ['c'] ∧ ¬Held (parentsOf w'.commits) w'.remote ['c'] := by
  have hrun : exec stepWithin behindWorld (.begin behindOptions :: List.replicate 5 .advance ++
      [.commit ['c'] ⟨0, [['a']]⟩]) = some committedWorld := by
    rfl
  refine ⟨_, reach_of_exec hrun, rfl, ⟨"main", ['c'], rfl, .refl _⟩,
    not_held_committed fun name tip htip => .inr ?_,
    not_held_committed fun name tip htip => .inr ?_⟩
  · by_cases hname : name = "main"
    · subst hname
      exact (some.inj htip).symm
    · simp [World.at, committedWorld, behindWorld, hname] at htip
  · by_cases hname : name = "main"
    · subst hname
      exact (some.inj htip).symm
    · simp [World.at, committedWorld, World.foundClean, behindWorld, hname] at htip

end Catamorphic.Git.NetworkSync
