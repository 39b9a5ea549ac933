import Catamorphic.Git.Transfer

/-!
# Objects before refs

A call that is about to write a ref has moved everything its commit reaches, provided no
object it took for the end of a branch was itself missing something. The condition is
needed: a transfer writes a commit before its tree, so one that is interrupted leaves a
commit the next transfer stops at.
-/

namespace Catamorphic.Git

open Runs Traversal List Option

variable {objects : Sha → GitObject} {inHistory : Repo → Sha → Sha → Bool}

/-- Everything `sha` reaches is in the store. -/
abbrev Repo.Whole (objects : Sha → GitObject) (r : Repo) (sha : Sha) : Prop :=
  Complete (Refers objects) r.has sha

/--
What the transfer relies on: an object it finds in the sink, and a commit `fetchRemote`
finds in the checkout, is there with everything it reaches.
-/
def FoundWhole (objects : Sha → GitObject) (w : World) : Event → Prop
  | .ask i sha => ∀ c t, w.transfer i = some (c, t) → (w.repos c.sink).has sha →
      (w.repos c.sink).Whole objects sha
  | .fetchRemote dev origin branch => ∀ sha, (w.repos origin).heads.lookup branch = some sha →
      (w.repos dev).has sha → (w.repos dev).Whole objects sha
  | _ => True

/-- Stores only gain objects. -/
def Grows (w w' : World) : Prop := ∀ i sha, (w.repos i).has sha → (w'.repos i).has sha

/-- The visits of a level that are not answered yet. -/
def Transfer.Pending (t : Transfer) (sha : Sha) : Prop := sha ∈ t.waiting ∨ sha ∈ t.missing

/-- What holds of a transfer that has not failed. -/
structure Transfer.Inv (objects : Sha → GitObject) (sink : Repo) (root : Sha) (t : Transfer) :
    Prop where
  /-- It starts at the commit to be published. -/
  root : root ∈ t.seen
  /-- What is seen is pending, or is in the sink with its references seen or found. -/
  covered : Covered (Refers objects) sink.has (· ∈ t.seen) t.Pending (· ∈ t.found)

def CallInv (objects : Sha → GitObject) (w : World) (c : Call) : Prop :=
  match c.phase with
  | .transferring t => t.failed = false → t.Inv objects (w.repos c.sink) c.sha
  | .updatingRef | .tracking => (w.repos c.sink).Whole objects c.sha
  | .returned | .failed => True

/-- The invariant of every call made so far. -/
def CallsInv (objects : Sha → GitObject) (w : World) : Prop :=
  ∀ c ∈ w.calls, CallInv objects w c

/-! ## Stores grow -/

theorem Grows.refl (w : World) : Grows w w := fun _ _ h => h

variable {w : World} {i : Nat}

/-- A store replaced by one with at least its objects. -/
theorem grows_setRepo {r : Repo} (h : ∀ sha, (w.repos i).has sha → r.has sha) :
    Grows w (w.setRepo i r) := by
  intro j sha hj
  by_cases hji : j = i
  · subst hji
    simpa [World.setRepo] using h sha hj
  · simpa [World.setRepo, hji] using hj

variable {sha : Sha}

theorem has_store {r : Repo} {x : Sha} : (r.store sha).has x ↔ x = sha ∨ r.has x := by
  simp [Repo.store, Repo.has]

theorem grows_store (w : World) (i : Nat) (sha : Sha) :
    Grows w (w.setRepo i ((w.repos i).store sha)) :=
  grows_setRepo (fun _ h => has_store.mpr (.inr h))

@[simp] theorem setRepo_repos_self (w : World) (i : Nat) (r : Repo) :
    (w.setRepo i r).repos i = r := by simp [World.setRepo]

variable {w' : World} {c : Call} {branch : String} {e : Event}

theorem CallInv.mono (hgrow : Grows w w') (h : CallInv objects w c) : CallInv objects w' c := by
  unfold CallInv at h ⊢
  cases hp : c.phase with
  | transferring t =>
    rw [hp] at h
    intro hfailed
    obtain ⟨hroot, hcov⟩ := h hfailed
    exact ⟨hroot, hcov.mono (hgrow c.sink)⟩
  | updatingRef | tracking => rw [hp] at h; exact Complete.mono h (hgrow c.sink)
  | returned => trivial
  | failed => trivial

/-- Calls keep the invariant while stores grow and no call moves. -/
theorem CallsInv.grow (h : CallsInv objects w) (hgrow : Grows w w') (hcalls : w'.calls = w.calls) :
    CallsInv objects w' := by
  intro c hc
  rw [hcalls] at hc
  exact (h c hc).mono hgrow

/-- One call moves to a new phase while stores grow. -/
theorem CallsInv.setPhase {phase : Phase} (h : CallsInv objects w) (hgrow : Grows w w')
    (hcalls : w'.calls = w.calls) (hnew : CallInv objects w' { c with phase }) :
    CallsInv objects (w'.setPhase i c phase) := by
  intro d hd
  rcases mem_or_eq_of_mem_set hd with hd | hd
  · rw [hcalls] at hd
    exact (h d hd).mono hgrow
  · subst hd
    exact hnew

/-- A new call. -/
theorem CallsInv.append (h : CallsInv objects w) (hnew : CallInv objects w c) :
    CallsInv objects { w with calls := w.calls ++ [c] } := by
  intro d hd
  rcases mem_append.mp hd with hd | hd
  · exact h d hd
  · rw [mem_singleton.mp hd]
    exact hnew

/-! ## The steps of one transfer -/

namespace Transfer

theorem inv_start (sink : Repo) (sha : Sha) : (start sha).Inv objects sink sha where
  root := by simp [start]
  covered := by
    intro v hv
    exact .inl (.inl hv)

variable {sink : Repo} {root sha : Sha} {t : Transfer}

section

variable (h : t.Inv objects sink root)
include h

/-- A visit that finds its object ends there. -/
theorem Inv.ask_found (hwhole : sink.Whole objects sha) :
    (t.ask sha true).Inv objects sink root where
  root := h.root
  covered := by
    intro v hv
    by_cases hvs : v = sha
    · subst hvs
      exact .inr ⟨hwhole.self, .inl hwhole⟩
    · rcases h.covered v hv with (hw | hm) | hdone
      · exact .inl (.inl ((mem_erase_of_ne hvs).mpr hw))
      · exact .inl (.inr hm)
      · exact .inr hdone

theorem Inv.ask_missing : (t.ask sha false).Inv objects sink root where
  root := h.root
  covered := by
    intro v hv
    by_cases hvs : v = sha
    · subst hvs
      exact .inl (.inr mem_cons_self)
    · rcases h.covered v hv with (hw | hm) | hdone
      · exact .inl (.inl ((mem_erase_of_ne hvs).mpr hw))
      · exact .inl (.inr (mem_cons_of_mem _ hm))
      · exact .inr hdone

theorem Inv.copied :
    (t.copied sha (references (objects sha))).Inv objects (sink.store sha) root where
  root := h.root
  covered := by
    intro v hv
    by_cases hvs : v = sha
    · subst hvs
      refine .inr ⟨has_store.mpr (.inl rfl), .inr (fun w hw => .inr ?_)⟩
      exact mem_append_right _ hw
    · rcases h.covered.mono (fun _ hp => has_store.mpr (.inr hp)) v hv with
        (hw | hm) | ⟨hp, hc | hf⟩
      · exact .inl (.inl hw)
      · exact .inl (.inr ((mem_erase_of_ne hvs).mpr hm))
      · exact .inr ⟨hp, .inl hc⟩
      · exact .inr ⟨hp, .inr (fun w hw => (hf w hw).imp id (mem_append_left _))⟩

omit h in
theorem levelDone_iff :
    t.levelDone = true ↔ t.failed = false ∧ t.waiting = [] ∧ t.missing = [] := by
  simp [levelDone, and_assoc]

omit h in
theorem not_pending_of_levelDone (hdone : t.levelDone = true) (v : Sha) : ¬ t.Pending v := by
  obtain ⟨_, hw, hm⟩ := levelDone_iff.mp hdone
  rintro (h | h)
  · rw [hw] at h; cases h
  · rw [hm] at h; cases h

theorem Inv.nextLevel (hdone : t.levelDone = true) : t.nextLevel.Inv objects sink root where
  root := mem_append_left _ h.root
  covered := by
    intro v hv
    rcases mem_append.mp hv with hv | hv
    · rcases h.covered v hv with hp | ⟨hp, hc | hf⟩
      · exact absurd hp (not_pending_of_levelDone hdone v)
      · exact .inr ⟨hp, .inl hc⟩
      · refine .inr ⟨hp, .inr (fun w hw => .inl ?_)⟩
        -- what was found is seen already or belongs to the new level
        by_cases hws : w ∈ t.seen
        · exact mem_append_left _ hws
        · have hwf : w ∈ t.found := (hf w hw).resolve_left hws
          refine mem_append_right _ (mem_filter.mpr ⟨mem_eraseDups.mpr hwf, ?_⟩)
          simpa using hws
    · exact .inl (.inl hv)

/-- A transfer that returns has moved everything its commit reaches. -/
theorem Inv.whole (hdone : t.levelDone = true) (hfound : t.found = []) : sink.Whole objects root :=
  h.covered.complete (not_pending_of_levelDone hdone)
    (fun v hv => by rw [hfound] at hv; cases hv) h.root

end

end Transfer

/-! ## The steps of a world -/

theorem transfer_eq_some {t : Transfer} (h : w.transfer i = some (c, t)) :
    c ∈ w.calls ∧ c.phase = .transferring t := by
  unfold World.transfer at h
  split at h
  · rename_i d hd
    split at h
    · rename_i u hu
      obtain ⟨rfl, rfl⟩ := h
      exact ⟨mem_of_getElem? hd, hu⟩
    · cases h
  · cases h

section

variable (h : CallsInv objects w)
include h

/-- The invariant of a running call's transfer. -/
theorem CallsInv.transfer {t : Transfer} (ht : w.transfer i = some (c, t))
    (hfailed : t.failed = false) : t.Inv objects (w.repos c.sink) c.sha := by
  obtain ⟨hc, hphase⟩ := transfer_eq_some ht
  have hinv := h c hc
  rw [CallInv, hphase] at hinv
  exact hinv hfailed

theorem callsInv_beginPush {dev origin : Nat} {localSha : Option Sha} {force : Bool}
    (hs : beginPush inHistory w dev origin branch localSha force = some w') :
    CallsInv objects w' := by
  unfold beginPush at hs
  simp only at hs
  split at hs
  · rw [← some.inj hs]
    exact h.append (fun _ => Transfer.inv_start _ _)
  · split at hs
    · rw [← some.inj hs]
      exact h.append trivial
    · split at hs
      · rw [← some.inj hs]
        exact h.append trivial
      · rw [← some.inj hs]
        exact h.append (fun _ => Transfer.inv_start _ _)

theorem callsInv_beginFetch {dev origin : Nat}
    (hok : FoundWhole objects w (.fetchRemote dev origin branch))
    (hs : beginFetch w dev origin branch = some w') : CallsInv objects w' := by
  unfold beginFetch at hs
  split at hs
  · rw [← some.inj hs]
    exact h
  · rename_i sha hsha
    rw [← some.inj hs]
    by_cases hhas : (w.repos dev).has sha
    · simp only [if_pos hhas]
      exact h.append (hok sha hsha hhas)
    · simp only [if_neg hhas]
      exact h.append (fun _ => Transfer.inv_start _ _)

theorem callsInv_ask (hok : FoundWhole objects w (.ask i sha))
    (hs : step objects inHistory w (.ask i sha) = some w') : CallsInv objects w' := by
  simp only [step, bind_eq_bind, bind_eq_some_iff] at hs
  obtain ⟨⟨c, t⟩, ht, hs⟩ := hs
  split at hs
  · rw [← some.inj hs]
    refine h.setPhase (Grows.refl w) rfl (fun hfailed => ?_)
    by_cases hhas : (w.repos c.sink).has sha
    · simp only [hhas] at hfailed ⊢
      exact (h.transfer ht hfailed).ask_found (hok c t ht hhas)
    · simp only [hhas] at hfailed ⊢
      exact (h.transfer ht hfailed).ask_missing
  · cases hs

theorem callsInv_copy
    (hs : step objects inHistory w (.copy i sha) = some w') : CallsInv objects w' := by
  simp only [step, bind_eq_bind, bind_eq_some_iff] at hs
  obtain ⟨⟨c, t⟩, ht, hs⟩ := hs
  split at hs
  · rw [← some.inj hs]
    refine h.setPhase (grows_store w c.sink sha) rfl (fun hfailed => ?_)
    have hinv : (t.copied sha (references (objects sha))).Inv objects
        ((w.repos c.sink).store sha) c.sha := (h.transfer ht hfailed).copied
    simpa [Call.sink] using hinv
  · cases hs

/-- A failed transfer promises nothing. -/
theorem callsInv_fail {landed : Bool}
    (hs : step objects inHistory w (.fail i sha landed) = some w') : CallsInv objects w' := by
  simp only [step, bind_eq_bind, bind_eq_some_iff] at hs
  obtain ⟨⟨c, t⟩, _, hs⟩ := hs
  have hbroke : ∀ w₁ : World,
      CallInv objects w₁ { c with phase := .transferring (t.broke sha) } := by
    intro w₁ hfailed
    exact absurd hfailed (by simp [Transfer.broke])
  split at hs
  · split at hs
    · rw [← some.inj hs]
      exact h.setPhase (grows_store w c.sink sha) rfl (hbroke _)
    · cases hs
  · split at hs
    · rw [← some.inj hs]
      exact h.setPhase (Grows.refl w) rfl (hbroke _)
    · cases hs

theorem callsInv_advance
    (hs : step objects inHistory w (.advance i) = some w') : CallsInv objects w' := by
  simp only [step, bind_eq_bind, bind_eq_some_iff] at hs
  obtain ⟨⟨c, t⟩, ht, hs⟩ := hs
  split at hs
  · rename_i hdone
    rw [← some.inj hs]
    have hinv := h.transfer ht (Transfer.levelDone_iff.mp hdone).1
    refine h.setPhase (Grows.refl w) rfl ?_
    by_cases hfound : t.found = []
    · -- the transfer returns
      simp only [hfound]
      have hwhole := hinv.whole hdone hfound
      cases hd : c.direction <;> simpa [CallInv, Call.afterTransfer, hd, Call.sink] using hwhole
    · simp only [List.isEmpty_iff, hfound]
      exact fun _ => hinv.nextLevel hdone
  · cases hs

theorem callsInv_updateRef
    (hs : step objects inHistory w (.updateRef i) = some w') : CallsInv objects w' := by
  simp only [step, bind_eq_bind, bind_eq_some_iff] at hs
  obtain ⟨c, hc, hs⟩ := hs
  split at hs
  · rename_i hphase
    rw [← some.inj hs]
    have hgrow : Grows w (w.setRepo c.origin
        { w.repos c.origin with heads := setRef (w.repos c.origin).heads c.branch c.sha }) :=
      grows_setRepo (fun _ hx => hx)
    refine h.setPhase hgrow rfl ?_
    have hinv := h c (mem_of_getElem? hc)
    rw [CallInv, hphase.1] at hinv
    exact hinv.mono (hgrow c.sink)
  · cases hs

theorem callsInv_end (hgrow : Grows w w') (hcalls : w'.calls = w.calls) :
    CallsInv objects (w'.setPhase i c .returned) ∧ CallsInv objects (w'.setPhase i c .failed) :=
  ⟨h.setPhase hgrow hcalls trivial, h.setPhase hgrow hcalls trivial⟩

/-- **Every step keeps the invariant, when what a transfer finds is whole.** -/
theorem callsInv_step (hok : FoundWhole objects w e)
    (hs : step objects inHistory w e = some w') : CallsInv objects w' := by
  cases e with
  | push dev origin branch localSha force => exact callsInv_beginPush h hs
  | fetchRemote dev origin branch => exact callsInv_beginFetch h hok hs
  | ask i sha => exact callsInv_ask h hok hs
  | copy i sha => exact callsInv_copy h hs
  | fail i sha landed => exact callsInv_fail h hs
  | advance i => exact callsInv_advance h hs
  | updateRef i => exact callsInv_updateRef h hs
  | track i =>
    simp only [step, bind_eq_bind, bind_eq_some_iff] at hs
    obtain ⟨c, _, hs⟩ := hs
    split at hs
    · rw [← some.inj hs]
      have hgrow : Grows w (w.setRepo c.dev
          { w.repos c.dev with published := setRef (w.repos c.dev).published c.branch c.sha }) :=
        grows_setRepo (fun _ hx => hx)
      exact (callsInv_end h hgrow rfl).1
    · cases hs
  | abandon i =>
    simp only [step, bind_eq_bind, bind_eq_some_iff] at hs
    obtain ⟨c, _, hs⟩ := hs
    split at hs
    · rw [← some.inj hs]
      exact (callsInv_end h (Grows.refl w) rfl).2
    · cases hs
  | store i sha =>
    rw [← some.inj hs]
    exact h.grow (grows_store w i sha) rfl
  | move i branch sha =>
    rw [← some.inj hs]
    exact h.grow (grows_setRepo (fun _ hx => hx)) rfl

end

/--
**A ref is written only over a whole history.**

Whatever the stores held at first, and wherever transfers fail or overlap: in a run whose
transfers find only whole objects, a call that has come to `updateRef` or to the tracking
ref has every object its commit reaches in the sink.
-/
theorem refs_over_whole_history (repos : Nat → Repo) {w : World}
    (h : Reach (step objects inHistory) (FoundWhole objects) ⟨repos, []⟩ w) :
    ∀ c ∈ w.calls, c.phase = .updatingRef ∨ c.phase = .tracking →
      ∀ sha, Relation.ReflTransGen (Refers objects) c.sha sha → (w.repos c.sink).has sha := by
  intro c hc hphase
  have hinv : CallsInv objects w :=
    h.invariant (fun c hc => absurd hc (by simp)) (fun _ _ _ => callsInv_step)
  have hcall := hinv c hc
  rcases hphase with hp | hp <;> rw [CallInv, hp] at hcall <;> exact hcall

/-! ## One commit over the empty tree -/

/-- The empty tree, and a commit of it with its own id. -/
def emptyTree : Sha := "4b825dc642cb6eb9a060e54bf8d69288fbee4904".toList
def initialCommit : Sha := "c64f64675f0df9101e252ae2ebe3331f72135164".toList

def initialObjects (sha : Sha) : GitObject :=
  if sha = initialCommit then
    ⟨.commit, ascii "tree " ++ ascii "4b825dc642cb6eb9a060e54bf8d69288fbee4904\n" ++
      ascii "author Work " ++ ascii "<system@work.software> " ++ ascii "0 +0000\n" ++
      ascii "committer Work " ++ ascii "<system@work.software> " ++ ascii "0 +0000\n\n" ++
      ascii "Initial commit\n"⟩
  else ⟨.tree, []⟩

/-- A checkout with that history, and an empty origin. -/
def initialRepos (i : Nat) : Repo :=
  if i = 0 then ⟨[initialCommit, emptyTree], [("main", initialCommit)], [], initialCommit⟩
  else ⟨[], [], [], []⟩

/-- A push whose visits all succeed. -/
def wholePush : List Event :=
  [.push 0 1 "main" none false, .ask 0 initialCommit, .copy 0 initialCommit, .advance 0,
    .ask 0 emptyTree, .copy 0 emptyTree, .advance 0]

/-- A push that fails before it reads the tree, and the push after it. -/
def interruptedPush : List Event :=
  [.push 0 1 "main" none false, .ask 0 initialCommit, .copy 0 initialCommit, .advance 0,
    .ask 0 emptyTree, .fail 0 emptyTree false,
    .push 0 1 "main" none false, .ask 1 initialCommit, .advance 1]

/-- No visit finds its object, so there is nothing to rely on. -/
def FindsNothing (w : World) : Event → Bool
  | .ask i sha => match w.transfer i with
      | some (c, _) => !decide ((w.repos c.sink).has sha)
      | none => true
  | .fetchRemote .. => false
  | _ => true

theorem foundWhole_of_findsNothing (h : FindsNothing w e = true) : FoundWhole objects w e := by
  cases e with
  | ask i sha =>
    intro c t ht hhas
    simp [FindsNothing, ht, hhas] at h
  | fetchRemote dev origin branch => simp [FindsNothing] at h
  | push => trivial
  | copy => trivial
  | fail => trivial
  | advance => trivial
  | updateRef => trivial
  | track => trivial
  | abandon => trivial
  | store => trivial
  | move => trivial

/-- The first push of a commit comes to `updateRef` with its tree in the origin. -/
theorem refs_over_whole_history_initial :
    ∃ w, Reach (step initialObjects (fun _ _ _ => false)) (FoundWhole initialObjects)
        ⟨initialRepos, []⟩ w ∧
      ∃ c ∈ w.calls, c.phase = .updatingRef ∧ (w.repos c.sink).has initialCommit := by
  have hcalls : (execOk (step initialObjects (fun _ _ _ => false))
      (fun w e => FindsNothing w e = true) ⟨initialRepos, []⟩ wholePush).map (fun w => w.calls) =
      some [⟨.push, 0, 1, "main", initialCommit, none, .updatingRef⟩] := by
    decide +kernel
  obtain ⟨w, hr, hw⟩ := map_eq_some_iff.mp hcalls
  have hreach : Reach (step initialObjects (fun _ _ _ => false)) (FoundWhole initialObjects)
      ⟨initialRepos, []⟩ w :=
    (reach_of_execOk hr).mono (fun _ _ => foundWhole_of_findsNothing)
  have hmem : (⟨.push, 0, 1, "main", initialCommit, none, .updatingRef⟩ : Call) ∈ w.calls := by
    rw [hw]
    exact mem_singleton_self _
  exact ⟨w, hreach, _, hmem, rfl,
    refs_over_whole_history initialRepos hreach _ hmem (.inl rfl) _ .refl⟩

/--
An interrupted push breaks it: the second push stops at the commit the first one wrote,
and comes to `updateRef` with the commit's tree missing from the origin.
-/
theorem interrupted_push_publishes_hole :
    ¬ ∀ (objects : Sha → GitObject) (inHistory : Repo → Sha → Sha → Bool) (repos : Nat → Repo)
        (w : World), Reach (step objects inHistory) anyEvent ⟨repos, []⟩ w →
      ∀ c ∈ w.calls, c.phase = .updatingRef ∨ c.phase = .tracking →
        ∀ sha, Relation.ReflTransGen (Refers objects) c.sha sha → (w.repos c.sink).has sha := by
  intro hclaim
  have hcall : (exec (step initialObjects (fun _ _ _ => false)) ⟨initialRepos, []⟩
      interruptedPush).map (fun w => (w.calls[1]?, decide ((w.repos 1).has emptyTree))) =
      some (some ⟨.push, 0, 1, "main", initialCommit, none, .updatingRef⟩, false) := by
    decide +kernel
  obtain ⟨w, hr, hw⟩ := map_eq_some_iff.mp hcall
  obtain ⟨hmem, habsent⟩ := Prod.mk.inj hw
  have hrefers : Refers initialObjects initialCommit emptyTree := by
    show emptyTree ∈ references (initialObjects initialCommit)
    decide +kernel
  exact of_decide_eq_false habsent (hclaim _ _ _ w (reach_of_exec hr) _
    (mem_of_getElem? hmem) (.inl rfl) emptyTree (.single hrefers))

end Catamorphic.Git
