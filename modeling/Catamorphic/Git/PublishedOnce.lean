import Catamorphic.Git.OriginMarks
import Catamorphic.Git.PublishedTrees

/-!
# What is published is published once

A round of publishing reads the refs, plans on them, calls `guard` with what the plan changes on
`main`, and moves `main` if it is still the one that was planned on. A lost race is a round in which
nothing was moved. The others may move any ref and store any object in between, and each call of the
origin may fail.
-/

namespace Catamorphic.Git

open Maps List

namespace Publishing

open Contended Folders Trees

section

variable (objects : Sha → GitObject) (trees : Sha → Tree)
variable (localeLe : Path → Path → Bool)
variable (diff3Merge : List (List Char) → List (List Char) → List (List Char) →
  List (Diff3Block (List Char)))
variable (blobId : List UInt8 → Sha) (treeId : Tree → Sha)
variable (commitId : CommitData → { sha : Sha // isSha sha = true })
variable (isIgnored : Tree → List Name → Except ReadFailure Bool)

/-! ## What is promised -/

/-- The tree that a commit names. -/
def commitTree (sha : Sha) : NamedTree :=
  let id := (parseCommitText (objects sha).data).tree
  ⟨id, trees id⟩

/-- The tree at a tip; without a commit there is none. -/
def tipTree (tip : Option Sha) : Tree :=
  tip.elim [] fun sha => (commitTree objects trees sha).entries

/-- The non-personal paths at which the one tree differs from the other; submodules aside. -/
def Exact (before after : Tree) (paths : List (List Name)) : Prop :=
  ∀ path, NoSubmodule before path → NoSubmodule after path →
    (path ∈ paths ↔ path ≠ [] ∧ shared [] path = true ∧ leafAt before path ≠ leafAt after path)

/-- The draft and `main` met at the base, as `compare` found it. -/
def Met (draft : Sha) (main base : Option Sha) : Prop :=
  match main with
  | none => base = none
  | some main => ∃ origin compared,
      ((OriginObjects.compare objects draft main).runOn origin ()).1 = .ok compared ∧
        compared.base = base

/-- The draft is planned on what it and `main` were read to be. -/
structure DraftPlanned (ref : List Char) (reads : List Event) (plan : Plan) : Prop where
  plan : ∃ draft base, reads = [.read ref (some draft), .read mainRef plan.main] ∧
    Met objects draft plan.main base ∧
    MergedIn diff3Merge objects blobId (tipTree objects trees base)
      (commitTree objects trees draft).entries (tipTree objects trees plan.main) plan.tree.entries

/-- `isReachable` found the one commit from the other. -/
def Reachable (base main : Sha) : Prop :=
  ∃ origin, ((OriginObjects.isReachable objects base [main] 20000).runOn origin ()).1 = .ok true

/-- The files are written on `main` as it was read, or on the published commit they come from. -/
structure FilesPlanned (changes : Changes) (given : Option (List Char)) (reads : List Event)
    (plan : Plan) : Prop where
  plan : ∃ base ours, reads = [.read mainRef plan.main] ∧
    (base = plan.main ∨ ∃ main, plan.main = some main ∧ base = given ∧
      ∀ sha, base = some sha → Reachable objects sha main) ∧
    Written (tipTree objects trees base) changes ours ∧
    MergedIn diff3Merge objects blobId (tipTree objects trees base) ours
      (tipTree objects trees plan.main) plan.tree.entries

/-- What `guard` was called with. -/
def called (guard : Option (List (List Name) → Except Refusal Unit)) (paths : List (List Name)) :
    List Event :=
  if guard.isSome then [.guarded paths] else []

variable (input : PublishInput) (Planned : List Event → Plan → Prop)
  (Cleared : List Event → List Event → Prop)

/-- The round has its plan, and called `guard` with what that changes on `main`. -/
structure Guarded (plan : Plan) (paths : List (List Name)) (events : List Event) : Prop where
  exact : Exact (tipTree objects trees plan.main) plan.tree.entries paths
  events : ∃ reads, Planned reads plan ∧ events = reads ++ called input.guard paths

/-- So it did, and `guard` had nothing against it. -/
def Allowed (events : List Event) : Prop :=
  ∃ plan paths, Guarded objects trees input Planned plan paths events ∧
    ∀ guard, input.guard = some guard → guard paths = .ok ()

/-- After that, `main` was moved from the commit the plan is made on to one of the plan's tree. -/
structure Deployed (sha : Sha) (events : List Event) : Prop where
  moved : ∃ plan paths before after now guarded,
    Guarded objects trees input Planned plan paths guarded ∧
    (∀ guard, input.guard = some guard → guard paths = .ok ()) ∧
    sha = (commitId ⟨plan.tree.id, plan.main.toList, ⟨input.name, input.email, now⟩,
      input.message⟩).val ∧
    Moves mainRef plan.main (some sha) before after ∧
    events = guarded ++ [.wrote mainRef before after]

def OnlyReads (events : List Event) : Prop := ∀ event ∈ events, ∃ ref value, event = .read ref value

/-- How the last round ends. -/
inductive Last : Except PublishFailure DraftPublishResult → List Event → Prop
  | deployed {sha : Sha} {events tail : List Event} :
      Deployed objects trees commitId input Planned sha events → Cleared events tail →
      Last (.ok (Publishing.deployed sha)) (events ++ tail)
  | nothing {main : Option Sha} {reads tail : List Event} :
      OnlyReads reads → Cleared reads tail →
      Last (.ok ⟨.nothingToDeploy, none, main, []⟩) (reads ++ tail)
  | conflict {commit main : Option Sha} {conflicts : List ConflictEntry} {reads : List Event} :
      OnlyReads reads → Last (.ok ⟨.conflict, commit, main, conflicts⟩) reads
  | refused {refusal : Refusal} {plan : Plan} {paths : List (List Name)}
      {guard : List (List Name) → Except Refusal Unit} {events : List Event} :
      Guarded objects trees input Planned plan paths events → input.guard = some guard →
      guard paths = .error refusal → Last (.error (.refused refusal)) events
  | failed {failure : PublishFailure} {events : List Event} :
      (∀ fault, failure ≠ .refFault fault) →
      OnlyReads events ∨ Allowed objects trees input Planned events →
      Last (.error failure) events
  /-- The origin failed in moving a ref itself. -/
  | broken {fault : Fault} {events : List Event} :
      OnlyReads events ∨ Allowed objects trees input Planned events ∨
        (∃ sha, Deployed objects trees commitId input Planned sha events) →
      Last (.error (.refFault fault)) events

/-- Lost rounds, each guarded, and a last one. -/
abbrev Published : Except PublishFailure DraftPublishResult → List Event → Prop :=
  Rounds (Allowed objects trees input Planned)
    (Last objects trees commitId input Planned Cleared) .busy MAX_ATTEMPTS

/-- The draft that was read is deleted, or it holds something else by now. -/
def DraftCleared (ref : List Char) (events tail : List Event) : Prop :=
  tail = [] ∨ ∃ draft before after, .read ref (some draft) ∈ events ∧
    Moves ref (some draft) none before after ∧ tail = [.wrote ref before after]

end

variable {expected : Option Sha} {sha draft : Sha}

/-! ## The operations -/

section

variable {α : Type} {Q : α → Prop} {failure : PublishFailure}

/-- A failure that is no ref's. -/
def Quiet (failure : PublishFailure) : Prop :=
  (∀ ref, failure ≠ .refMoved ref) ∧ ∀ fault, failure ≠ .refFault fault

/-- Nothing happens, and the result has `Q`. -/
def Reads (Q : α → Prop) : Except PublishFailure α → List Event → Prop
  | .ok a, events => events = [] ∧ Q a
  | .error failure, events => events = [] ∧ Quiet failure

theorem ends_atOrigin {f : Origin → Except PublishFailure α}
    (hok : ∀ origin a, f origin = .ok a → Q a)
    (herror : ∀ origin failure, f origin = .error failure → Quiet failure) :
    EndsWith (atOrigin f) (Reads Q) := by
  refine .operation (fun fault => ⟨rfl, nofun, nofun⟩) (fun site failure h => ?_)
    fun site a after events h => ?_
  · rcases hf : f site.origin with failure' | a
    · rw [hf] at h
      exact ⟨rfl, Except.error.inj h ▸ herror _ _ hf⟩
    · rw [hf] at h
      cases h
  · obtain ⟨a', hf, heq⟩ := map_ok h
    cases heq
    exact ⟨rfl, hok _ _ hf⟩

/-- What a failure is wrapped in is no ref's. -/
theorem ends_mapped {Failure : Type} {f : Origin → Except Failure α}
    {wrap : Failure → PublishFailure} (hwrap : ∀ failure, Quiet (wrap failure))
    (hok : ∀ origin a, f origin = .ok a → Q a) :
    EndsWith (atOrigin fun origin => (f origin).mapError wrap) (Reads Q) := by
  refine ends_atOrigin (fun origin a h => ?_) fun origin failure h => ?_
  · rcases hf : f origin with failure | a'
    · rw [hf] at h
      cases h
    · rw [hf] at h
      exact hok origin a (hf.trans (congrArg _ (Except.ok.inj h)))
  · rcases hf : f origin with failure' | a'
    · rw [hf] at h
      exact Except.error.inj h ▸ hwrap failure'
    · rw [hf] at h
      cases h

/-- After a read there are the events of what follows. -/
theorem EndsWith.reads {β : Type} {m : Publish α} {f : α → Publish β}
    {P : Except PublishFailure β → List Event → Prop} (hm : EndsWith m (Reads Q))
    (hok : ∀ a, Q a → EndsWith (f a) P)
    (herror : ∀ failure, Quiet failure → P (.error failure) []) : EndsWith (m >>= f) P := by
  refine hm.bind (fun a events h => ?_) fun failure events h => ?_
  · obtain ⟨rfl, ha⟩ := h
    exact hok a ha
  · obtain ⟨rfl, hfailure⟩ := h
    exact herror failure hfailure

/-- The ref was read, to an id that it may hold. -/
def Resolved (ref : List Char) : Except PublishFailure (Option Sha) → List Event → Prop
  | .ok value, events =>
    events = [.read ref value] ∧ isRefKey ref = true ∧ ∀ sha, value = some sha → isSha sha = true
  | .error failure, events => events = [] ∧ Quiet failure

theorem ends_resolveRef (ref : List Char) : EndsWith (resolveRef ref) (Resolved ref) := by
  refine .operation (fun fault => ⟨rfl, nofun, nofun⟩) (fun site failure h => ?_)
    fun site value after events h => ?_
  · rcases hf : site.origin.resolveRef ref with failure' | a
    · rw [hf] at h
      exact ⟨rfl, Except.error.inj h ▸ ⟨nofun, nofun⟩⟩
    · rw [hf] at h
      cases h
  · rcases hf : site.origin.resolveRef ref with failure | value'
    · rw [hf] at h
      cases h
    · rw [hf] at h
      cases h
      exact ⟨rfl, isRefKey_of_resolveRef hf, fun sha hsha => isSha_of_resolveRef (hsha ▸ hf)⟩

/-- The ref was moved, or it is where it was. -/
def Moved (ref : List Char) (was now : Option Sha) : Except PublishFailure Unit → List Event → Prop
  | .ok (), events => ∃ before after, Moves ref was now before after ∧
      events = [.wrote ref before after]
  | .error failure, events => events = [] ∧
      ((∃ ref, failure = .refMoved ref) ∨ ∃ fault, failure = .refFault fault)

theorem ends_changeRef {ref : List Char} {now : Option Sha}
    {change : (origin : Origin) → isRefKey ref = true → Origin} (hkey : isRefKey ref = true)
    (hmoves : ∀ origin h, origin.held ref = expected →
      Moves ref expected now origin (change origin h)) :
    EndsWith (changeRef ref expected change) (Moved ref expected now) := by
  refine .operation (fun fault => ⟨rfl, .inr ⟨fault, rfl⟩⟩) (fun site failure h => ?_)
    fun site value after events h => ?_
  · rw [dif_pos hkey] at h
    split at h
    · cases h
    · exact ⟨rfl, .inl ⟨ref, (Except.error.inj h).symm⟩⟩
  · rw [dif_pos hkey] at h
    split at h
    · next hheld =>
      cases h
      exact ⟨_, _, hmoves _ hkey hheld, rfl⟩
    · cases h

theorem ends_updateRef (hsha : isSha sha = true)
    (hexpected : ∀ sha, expected = some sha → isSha sha = true) :
    EndsWith (updateRef mainRef sha expected) (Moved mainRef expected (some sha)) :=
  ends_changeRef (by decide) fun _ hkey => moves_withRef hkey hexpected hsha

/-- The draft is deleted, or it holds something else. -/
def ClearedOf (ref : List Char) (draft : Sha) : Except PublishFailure Unit → List Event → Prop
  | .ok (), events => events = [] ∨ ∃ before after, Moves ref (some draft) none before after ∧
      events = [.wrote ref before after]
  | .error failure, events => events = [] ∧ ∃ fault, failure = .refFault fault

theorem ends_clearDraft {ref : List Char} (hkey : isRefKey ref = true) (hsha : isSha draft = true) :
    EndsWith (clearDraft ref draft) (ClearedOf ref draft) := by
  refine EndsWith.tryCatch (P := Moved ref (some draft) none)
    (ends_changeRef hkey fun _ _ => moves_withoutRef hkey hsha)
    (fun _ _ => .inr) fun failure events h => ?_
  rcases h with ⟨rfl, ⟨ref', rfl⟩ | ⟨fault, rfl⟩⟩
  · exact .pure (.inl rfl)
  · exact .throw ⟨rfl, fault, rfl⟩

/-- `guard` was called, and had nothing against the paths, or refused them. -/
def Called (guard : Option (List (List Name) → Except Refusal Unit)) (paths : List (List Name)) :
    Except PublishFailure Unit → List Event → Prop
  | .ok (), events =>
    events = called guard paths ∧ ∀ call, guard = some call → call paths = .ok ()
  | .error failure, events => events = called guard paths ∧
      ∃ call refusal, guard = some call ∧ call paths = .error refusal ∧ failure = .refused refusal

theorem ends_callGuard (guard : Option (List (List Name) → Except Refusal Unit))
    (paths : List (List Name)) : EndsWith (callGuard guard paths) (Called guard paths) := by
  cases guard with
  | none => exact .pure ⟨rfl, nofun⟩
  | some call =>
    refine EndsWith.bind (P := fun result events => result = .ok () ∧ events = [.guarded paths])
      (.note ⟨rfl, rfl⟩) ?_ ?_
    · rintro _ events ⟨-, rfl⟩
      rcases hcall : call paths with refusal | _
      · exact .throw ⟨rfl, call, refusal, rfl, hcall, rfl⟩
      · exact .pure ⟨rfl, fun other hother => Option.some.inj hother ▸ hcall⟩
    · rintro failure events ⟨h, -⟩
      cases h

end

variable {failure : PublishFailure} {main : Option Sha} {reads : List Event}
variable {mainTree : Option NamedTree} {changes : Changes}

/-! ## A round -/

section

variable {objects : Sha → GitObject} {trees : Sha → Tree}
variable {localeLe : Path → Path → Bool}
variable {diff3Merge : List (List Char) → List (List Char) → List (List Char) →
  List (Diff3Block (List Char))}
variable {blobId : List UInt8 → Sha} {treeId : Tree → Sha}
variable {commitId : CommitData → { sha : Sha // isSha sha = true }}
variable {isIgnored : Tree → List Name → Except ReadFailure Bool}

theorem ends_reading {α : Type} {Q : α → Prop} {read : OriginObjects.Read Unit α}
    (h : ∀ origin a, (read.runOn origin ()).1 = .ok a → Q a) : EndsWith (reading read) (Reads Q) :=
  ends_mapped (fun _ => ⟨nofun, nofun⟩) h

theorem commit_ok {origin : Origin} {commit : CommitText}
    (h : ((OriginObjects.commit objects sha).runOn origin ()).1 = .ok commit) :
    commit = parseCommitText (objects sha).data := by
  by_cases hsha : isSha sha = true
  · by_cases hobject : origin.hasObject sha = true
    · by_cases htype : (objects sha).type = .commit
      · rw [OriginObjects.runOn_commit hobject htype] at h
        exact (Except.ok.inj h).symm
      · simp [OriginObjects.commit, OriginObjects.read, Asks.runOn_bind, hsha, hobject, htype] at h
    · simp [OriginObjects.commit, OriginObjects.read, Asks.runOn_bind, hsha, hobject] at h
  · simp [OriginObjects.commit, OriginObjects.read, hsha] at h

theorem ends_treeOf (sha : Sha) : EndsWith (treeOf objects trees sha)
      (Reads fun tree => tree = commitTree objects trees sha) := by
  refine EndsWith.reads (ends_reading fun origin commit => commit_ok) ?_
    fun failure hfailure => ⟨rfl, hfailure⟩
  rintro commit rfl
  exact .pure ⟨rfl, rfl⟩

theorem ends_treeOfTip (tip : Option Sha) : EndsWith (treeOfTip objects trees tip)
    (Reads fun tree => entriesOf tree = tipTree objects trees tip) := by
  cases tip with
  | none => exact .pure ⟨rfl, rfl⟩
  | some sha =>
    refine EndsWith.reads (ends_treeOf sha) ?_ fun failure hfailure => ⟨rfl, hfailure⟩
    rintro tree rfl
    exact .pure ⟨rfl, rfl⟩

theorem ends_merge (base ours theirs : Tree) :
    EndsWith (merge objects localeLe diff3Merge blobId isIgnored base ours theirs)
      (Reads fun result => ∀ tree, result = .merged tree →
        MergedIn diff3Merge objects blobId base ours theirs tree) := by
  refine ends_mapped (fun _ => ⟨nofun, nofun⟩) fun origin result h tree htree => ?_
  subst htree
  exact mergedIn_of_merged h

/-- **`diffTrees` gives exactly the paths that differ.** -/
theorem exact_diffTrees (before after : Tree) :
    Exact before after ((diffTrees localeLe before after).map Difference.path) := by
  intro path hbefore hafter
  rw [← fileAt_eq_leafAt hbefore, ← fileAt_eq_leafAt hafter, mem_map]
  constructor
  · rintro ⟨change, hchange, rfl⟩
    obtain ⟨hpath, hshared, hne, -⟩ := mem_diffTrees.mp hchange
    exact ⟨hpath, hshared, hne⟩
  · rintro ⟨hpath, hshared, hne⟩
    exact ⟨⟨path, fileAt before path, fileAt after path⟩,
      mem_diffTrees.mpr ⟨hpath, hshared, hne, rfl⟩, rfl⟩

variable {input : PublishInput} {Planned : List Event → Plan → Prop}
  {Cleared : List Event → List Event → Prop} {plan : Plan}

/-- How a round ends that is not lost: with its result, or with what it throws. -/
structure Tried {α : Type} (lost : List Event → Prop)
    (last : Except PublishFailure α → List Event → Prop)
    (result : Except PublishFailure (Option α)) (events : List Event) : Prop where
  ended : ∀ a, result = .ok (some a) → last (.ok a) events
  never : result ≠ .ok none
  moved : ∀ ref, result = .error (.refMoved ref) → lost events
  thrown : ∀ failure, (∀ ref, failure ≠ .refMoved ref) → result = .error failure →
    last (.error failure) events

section

variable {α : Type} {lost : List Event → Prop} {last : Except PublishFailure α → List Event → Prop}
  {events : List Event}

theorem Tried.of_some {a : α} (h : last (.ok a) events) :
    Tried lost last (.ok (some a)) events where
  ended _ heq := Option.some.inj (Except.ok.inj heq) ▸ h
  never := nofun
  moved := nofun
  thrown := nofun

theorem Tried.of_error (hmoved : (∃ ref, failure = .refMoved ref) → lost events)
    (herror : (∀ ref, failure ≠ .refMoved ref) → last (.error failure) events) :
    Tried lost last (.error failure) events where
  ended := nofun
  never := nofun
  moved ref heq := hmoved ⟨ref, Except.error.inj heq⟩
  thrown failure' hnot heq := by
    obtain rfl := Except.error.inj heq
    exact herror hnot

theorem Tried.of_quiet (hfailure : Quiet failure) (h : last (.error failure) events) :
    Tried lost last (.error failure) events :=
  .of_error (fun ⟨ref, heq⟩ => absurd heq (hfailure.1 ref)) fun _ => h

end

theorem ends_attempt {α : Type} {m : Publish (Option α)} {before : List Event}
    {lost : List Event → Prop} {last : Except PublishFailure α → List Event → Prop}
    (h : EndsWith m fun result later => Tried lost last result (before ++ later)) :
    EndsWith (attempt m) fun result later => Lost lost last result (before ++ later) := by
  refine h.tryCatch (fun outcome events htried => ?_) fun failure events htried => ?_
  · cases outcome with
    | none => exact absurd rfl htried.never
    | some a => exact htried.ended a rfl
  · by_cases hmoved : ∃ ref, failure = .refMoved ref
    · obtain ⟨ref, rfl⟩ := hmoved
      refine .pure ?_
      rw [append_nil]
      exact htried.moved ref rfl
    · have hnot : ∀ ref, failure ≠ .refMoved ref := fun ref heq => hmoved ⟨ref, heq⟩
      have hend := htried.thrown failure hnot rfl
      rw [← append_nil events] at hend
      cases failure with
      | refMoved ref => exact absurd rfl (hnot ref)
      | _ => exact .throw hend

theorem ends_writeCommit (commit : Nat → CommitData) : EndsWith (writeCommit commitId commit)
    (Reads fun sha => ∃ now, sha = (commitId (commit now)).val) := by
  refine .operation (fun fault => ⟨rfl, nofun, nofun⟩) (fun site failure h => ?_)
    fun site sha after events h => ?_
  · cases h
  · cases h
    exact ⟨rfl, site.now, rfl⟩

/-- `main` was moved; or the race was lost, or the round ends with what is thrown. -/
def Committed (objects : Sha → GitObject) (trees : Sha → Tree)
    (commitId : CommitData → { sha : Sha // isSha sha = true }) (input : PublishInput)
    (Planned : List Event → Plan → Prop) (Cleared : List Event → List Event → Prop) :
    Except PublishFailure Sha → List Event → Prop
  | .ok sha, events => Deployed objects trees commitId input Planned sha events
  | .error failure, events =>
    ((∃ ref, failure = .refMoved ref) → Allowed objects trees input Planned events) ∧
      ((∀ ref, failure ≠ .refMoved ref) →
        Last objects trees commitId input Planned Cleared (.error failure) events)

theorem Last.of_nothing (hreads : OnlyReads reads) (hcleared : Cleared reads []) :
    Last objects trees commitId input Planned Cleared
      (.ok ⟨.nothingToDeploy, none, main, []⟩) reads := by
  rw [← append_nil reads]
  exact .nothing hreads hcleared

theorem Last.of_deployed {events : List Event}
    (h : Deployed objects trees commitId input Planned sha events) (hcleared : Cleared events []) :
    Last objects trees commitId input Planned Cleared (.ok (Publishing.deployed sha)) events := by
  rw [← append_nil events]
  exact .deployed h hcleared

theorem ends_commitOnMain (Cleared : List Event → List Event → Prop) (hplanned : Planned reads plan)
    (hmainTree : entriesOf mainTree = tipTree objects trees plan.main)
    (hmain : ∀ sha, plan.main = some sha → isSha sha = true) :
    EndsWith (commitOnMain localeLe commitId input plan.main mainTree plan.tree) fun result later =>
        Committed objects trees commitId input Planned Cleared result (reads ++ later) := by
  have hexact := @exact_diffTrees localeLe (entriesOf mainTree) plan.tree.entries
  rw [commitOnMain]
  rw [hmainTree] at hexact ⊢
  generalize (diffTrees localeLe (tipTree objects trees plan.main) plan.tree.entries).map
    Difference.path = paths at hexact ⊢
  have hguarded : Guarded objects trees input Planned plan paths
      (reads ++ called input.guard paths) := ⟨hexact, reads, hplanned, rfl⟩
  refine (ends_callGuard _ _).bind (fun _ events hcalled => ?_) fun failure events hcalled => ?_
  · obtain ⟨rfl, hallowed⟩ := hcalled
    have hquiet : ∀ failure, Quiet failure → Committed objects trees commitId input Planned Cleared
        (.error failure) (reads ++ (called input.guard paths ++ [])) := by
      intro failure hfailure
      rw [append_nil]
      exact ⟨fun ⟨ref, heq⟩ => absurd heq (hfailure.1 ref),
        fun _ => .failed hfailure.2 (.inr ⟨plan, _, hguarded, hallowed⟩)⟩
    refine EndsWith.reads (ends_writeCommit _) ?_ hquiet
    rintro sha ⟨now, rfl⟩
    refine (ends_updateRef (commitId _).property hmain).bind (fun _ events hmoved => ?_)
      fun failure events hmoved => ?_
    · obtain ⟨before, after, hmoves, rfl⟩ := hmoved
      refine .pure ⟨plan, _, before, after, now, _, hguarded, hallowed, rfl, hmoves, ?_⟩
      rw [append_nil, append_assoc]
    · obtain ⟨rfl, hfailure⟩ := hmoved
      rw [append_nil]
      refine ⟨fun _ => ⟨plan, _, hguarded, hallowed⟩, fun hnot => ?_⟩
      rcases hfailure with ⟨ref, rfl⟩ | ⟨fault, rfl⟩
      · exact absurd rfl (hnot ref)
      · exact .broken (.inr (.inl ⟨plan, _, hguarded, hallowed⟩))
  · obtain ⟨rfl, call, refusal, hguard, hcall, rfl⟩ := hcalled
    exact ⟨fun ⟨ref, heq⟩ => (by cases heq), fun _ => .refused hguarded hguard hcall⟩

/-! ## Publishing a draft -/

variable {ref : List Char}

theorem onlyReads_two (first second : List Char) (value value' : Option Sha) :
    OnlyReads [.read first value, .read second value'] := by
  intro event hevent
  rcases mem_cons.mp hevent with rfl | hevent
  · exact ⟨_, _, rfl⟩
  · exact ⟨_, _, mem_singleton.mp hevent⟩

/-- What planning a draft comes to. -/
def PlanEnd (objects : Sha → GitObject) (trees : Sha → Tree)
    (diff3Merge : List (List Char) → List (List Char) → List (List Char) →
      List (Diff3Block (List Char))) (blobId : List UInt8 → Sha)
    (commitId : CommitData → { sha : Sha // isSha sha = true }) (input : PublishInput)
    (ref : List Char) (draft main : Option Sha) :
    Except PublishFailure PublishPlan → List Event → Prop
  | .ok (.publish read plan), later => later = [] ∧ draft = some read ∧ main = plan.main ∧
      DraftPlanned objects trees diff3Merge blobId ref [.read ref draft, .read mainRef main] plan
  | .ok (.done result), later =>
    Last objects trees commitId input (DraftPlanned objects trees diff3Merge blobId ref)
      (DraftCleared ref) (.ok result) (.read ref draft :: .read mainRef main :: later)
  | .error failure, later =>
    Last objects trees commitId input (DraftPlanned objects trees diff3Merge blobId ref)
      (DraftCleared ref) (.error failure) (.read ref draft :: .read mainRef main :: later)

theorem ends_nothing {draft : Option Sha} (hkey : isRefKey ref = true)
    (hdraft : ∀ sha, draft = some sha → isSha sha = true) : EndsWith (nothing ref draft main)
      (PlanEnd objects trees diff3Merge blobId commitId input ref draft main) := by
  have hreads := onlyReads_two ref mainRef draft main
  cases draft with
  | none => exact .pure (.of_nothing hreads (.inl rfl))
  | some draft =>
    refine (ends_clearDraft hkey (hdraft draft rfl)).bind (fun _ events hcleared => ?_)
      fun failure events hcleared => ?_
    · refine .pure ?_
      rw [append_nil]
      refine Last.nothing hreads (hcleared.imp id ?_)
      rintro ⟨before, after, hmoves, rfl⟩
      exact ⟨draft, before, after, .head _, hmoves, rfl⟩
    · obtain ⟨rfl, fault, rfl⟩ := hcleared
      exact .broken (.inl hreads)

theorem ends_planned {main : Sha} {base : Option Sha} {mainTree tree : NamedTree}
    (hkey : isRefKey ref = true) (hdraft : isSha draft = true)
    (hmet : Met objects draft (some main) base)
    (hmerged : MergedIn diff3Merge objects blobId (tipTree objects trees base)
      (commitTree objects trees draft).entries (tipTree objects trees (some main)) tree.entries) :
    EndsWith (planned ref draft main mainTree tree)
      (PlanEnd objects trees diff3Merge blobId commitId input ref (some draft) (some main)) := by
  unfold planned
  split
  · exact ends_nothing hkey fun sha hsha => Option.some.inj hsha ▸ hdraft
  · exact .pure ⟨rfl, rfl, rfl, ⟨draft, base, rfl, hmet, hmerged⟩⟩

/-- What a plan was made on. -/
inductive PlannedOn (objects : Sha → GitObject) (trees : Sha → Tree)
    (diff3Merge : List (List Char) → List (List Char) → List (List Char) →
      List (Diff3Block (List Char))) (blobId : List UInt8 → Sha)
    (commitId : CommitData → { sha : Sha // isSha sha = true }) (input : PublishInput)
    (ref : List Char) : Except PublishFailure PublishPlan → List Event → Prop
  | unread {failure : PublishFailure} {events : List Event} : OnlyReads events → Quiet failure →
      PlannedOn objects trees diff3Merge blobId commitId input ref (.error failure) events
  | read {result : Except PublishFailure PublishPlan} {draft main : Option Sha}
      {later : List Event} : isRefKey ref = true → (∀ sha, draft = some sha → isSha sha = true) →
      (∀ sha, main = some sha → isSha sha = true) →
      PlanEnd objects trees diff3Merge blobId commitId input ref draft main result later →
      PlannedOn objects trees diff3Merge blobId commitId input ref result
        (.read ref draft :: .read mainRef main :: later)

theorem ends_planPublish (commitId : CommitData → { sha : Sha // isSha sha = true })
    (input : PublishInput) (ref : List Char) :
    EndsWith (planPublish objects trees localeLe diff3Merge blobId treeId isIgnored ref)
      (PlannedOn objects trees diff3Merge blobId commitId input ref) := by
  refine (ends_resolveRef ref).bind ?_ ?_
  · rintro draft _ ⟨rfl, hkey, hdraft⟩
    refine (ends_resolveRef mainRef).bind ?_ ?_
    · rintro main _ ⟨rfl, -, hmain⟩
      refine EndsWith.mono (P := PlanEnd objects trees diff3Merge blobId commitId input ref draft
        main) ?_ fun result later => .read hkey hdraft hmain
      have hreads := onlyReads_two ref mainRef draft main
      have hquiet : ∀ failure, Quiet failure →
          PlanEnd objects trees diff3Merge blobId commitId input ref draft main (.error failure)
            [] :=
        fun failure hfailure => .failed hfailure.2 (.inl hreads)
      cases draft with
      | none => exact ends_nothing hkey hdraft
      | some draft =>
        cases main with
        | none =>
          refine EndsWith.reads (ends_treeOf draft) ?_ hquiet
          rintro tree rfl
          have origin : Origin := ⟨[], fun _ => false, by simp⟩
          exact .pure ⟨rfl, rfl, rfl, ⟨draft, none, rfl, rfl, mergedIn_self origin⟩⟩
        | some main =>
          refine EndsWith.reads (ends_treeOf draft) ?_ hquiet
          rintro draftTree rfl
          refine EndsWith.reads
            (Q := fun compared => Met objects draft (some main) compared.base)
            (ends_reading fun origin compared h => ⟨origin, compared, h, rfl⟩) ?_ hquiet
          intro compared hmet
          refine EndsWith.reads (ends_treeOf main) ?_ hquiet
          rintro mainTree rfl
          split
          · next hbase =>
            rw [hbase] at hmet
            obtain ⟨origin, -⟩ := id hmet
            exact ends_planned hkey (hdraft draft rfl) hmet (mergedIn_self origin)
          · refine EndsWith.reads (ends_treeOfTip compared.base) ?_ hquiet
            intro baseTree hbaseTree
            refine EndsWith.reads (ends_merge _ _ _) ?_ hquiet
            intro result hresult
            rcases result with tree | conflicts
            · rw [hbaseTree] at hresult
              exact ends_planned hkey (hdraft draft rfl) hmet (hresult tree rfl)
            · exact .pure (.conflict hreads)
    · rintro failure _ ⟨rfl, hfailure⟩
      exact .unread (fun event hevent => ⟨ref, draft, mem_singleton.mp hevent⟩) hfailure
  · rintro failure _ ⟨rfl, hfailure⟩
    exact .unread nofun hfailure

theorem ends_commitPlan (hplanned : DraftPlanned objects trees diff3Merge blobId ref
      [.read ref (some draft), .read mainRef plan.main] plan) (hkey : isRefKey ref = true)
    (hdraft : isSha draft = true) (hmain : ∀ sha, plan.main = some sha → isSha sha = true) :
    EndsWith (do
      let mainTree ← treeOfTip objects trees plan.main
      let sha ← commitOnMain localeLe commitId input plan.main mainTree plan.tree
      clearDraft ref draft
      return some sha) fun result later =>
        Tried (Allowed objects trees input (DraftPlanned objects trees diff3Merge blobId ref))
          (fun result => Last objects trees commitId input
            (DraftPlanned objects trees diff3Merge blobId ref) (DraftCleared ref)
            (result.map deployed)) result
          ([.read ref (some draft), .read mainRef plan.main] ++ later) := by
  refine EndsWith.reads (ends_treeOfTip plan.main) (fun mainTree hmainTree => ?_)
    fun failure hfailure => ?_
  · refine (ends_commitOnMain (DraftCleared ref) hplanned hmainTree hmain).bind
      (fun sha events hdeployed => ?_)
      fun failure events hcommitted => .of_error hcommitted.1 hcommitted.2
    refine (ends_clearDraft hkey hdraft).bind (fun _ tail hcleared => ?_)
      fun failure tail hcleared => ?_
    · refine .pure (.of_some ?_)
      rw [append_nil, ← append_assoc]
      refine .deployed hdeployed (hcleared.imp id ?_)
      rintro ⟨before, after, hmoves, rfl⟩
      exact ⟨draft, before, after, .head _, hmoves, rfl⟩
    · obtain ⟨rfl, fault, rfl⟩ := hcleared
      rw [append_nil]
      exact .of_error (fun ⟨ref, heq⟩ => by cases heq)
        fun _ => .broken (.inr (.inr ⟨sha, hdeployed⟩))
  · exact .of_quiet hfailure (.failed hfailure.2 (.inl (onlyReads_two _ _ _ _)))

/-- A round of publishing a draft is lost with its guard called, or is the last one. -/
theorem ends_publishRound (ref : List Char) (input : PublishInput) :
    EndsWith (publishRound objects trees localeLe diff3Merge blobId treeId commitId isIgnored ref
      input)
      (Lost (Allowed objects trees input (DraftPlanned objects trees diff3Merge blobId ref))
        (Last objects trees commitId input (DraftPlanned objects trees diff3Merge blobId ref)
          (DraftCleared ref))) := by
  refine (ends_planPublish commitId input ref).bind (fun plan events hplan => ?_)
    fun failure events hplan => ?_
  · rcases hplan with _ | @⟨_, draft, main, later, hkey, hdraft, hmain, hend⟩
    rcases plan with result | ⟨draft', plan⟩
    · refine .pure ?_
      rw [append_nil]
      exact hend
    · obtain ⟨rfl, rfl, rfl, hplanned⟩ := hend
      refine (ends_attempt (ends_commitPlan hplanned hkey (hdraft draft' rfl) hmain)).bind
        (fun published events hround => ?_) fun failure events hround => hround
      refine .pure ?_
      rw [append_nil]
      cases published with
      | none => exact hround
      | some sha => exact hround
  · rcases hplan with ⟨hreads, hfailure⟩ | ⟨-, -, -, hend⟩
    · exact .failed hfailure.2 (.inl hreads)
    · exact hend

/-! ## Publishing files -/

theorem writes_foldl {entries : List (List Name × List UInt8)} {start : Changes}
    (hpath : ∀ entry ∈ entries, entry.1 ≠ [])
    (hstart : ∀ pair ∈ start, pair.2.isSome ∧ pair.1 ≠ []) :
    ∀ pair ∈ entries.foldl (fun changes entry =>
      setAt changes entry.1 (some ⟨blobId entry.2, none⟩)) start, pair.2.isSome ∧ pair.1 ≠ [] := by
  induction entries generalizing start with
  | nil => exact hstart
  | cons entry entries ih =>
    refine ih (List.forall_mem_cons.mp hpath).2 fun pair hpair => ?_
    rcases of_mem_setAt hpair with rfl | hpair
    · exact ⟨rfl, hpath entry (.head _)⟩
    · exact hstart pair hpair

/-- What `publishFilesToOrigin` writes are files, each at a path of its own. -/
theorem files_changesOf {files : List (Path × List Char)}
    (h : changesOf blobId files = .ok changes) : Files changes := by
  obtain ⟨entries, hentries, hchanges⟩ := bind_ok h
  obtain rfl := Except.ok.inj hchanges
  have hpath : ∀ entry ∈ entries, entry.1 ≠ [] := by
    intro entry hentry
    obtain ⟨file, -, hfile⟩ := exists_of_forall₂ (mapM_ok hentries).flip hentry
    obtain ⟨path, -, heq⟩ := bind_ok hfile
    obtain rfl := Except.ok.inj heq
    exact segmentsOf_ne_nil path
  have hall := @writes_foldl blobId entries [] hpath nofun
  exact ⟨@distinct_foldl_setAt (List Name) TreeChange _ (List UInt8) entries
      (fun _ bytes => some ⟨blobId bytes, none⟩) [] .nil,
    fun pair hpair => (hall pair hpair).1, fun pair hpair => (hall pair hpair).2⟩

theorem ends_writeTree (h : Files changes) (base : Tree) :
    EndsWith (atOrigin fun _ => (writeTree false base changes).mapError .write)
      (Reads (Written base changes)) :=
  ends_mapped (fun _ => ⟨nofun, nofun⟩) fun _ _ => written_of_writeTree h

theorem baseOf_eq {given : Option (List Char)} {base tip : Sha}
    (h : baseOf given main = some (base, tip)) : given = some base ∧ main = some tip := by
  unfold baseOf at h
  split at h
  · split at h
    · cases h
    · cases h
      exact ⟨rfl, rfl⟩
  · cases h

theorem ends_mergeFiles (hfiles : Files changes) (given : Option (List Char))
    (hmainTree : entriesOf mainTree = tipTree objects trees main) :
    EndsWith (mergeFiles objects trees localeLe diff3Merge blobId isIgnored changes given main
      mainTree) (Reads fun result => ∀ tree, result = .merged tree → ∀ id,
        FilesPlanned objects trees diff3Merge blobId changes given [.read mainRef main]
          ⟨main, ⟨id, tree⟩⟩) := by
  have hquiet : ∀ {Q : MergeResult → Prop} (failure : PublishFailure), Quiet failure →
      Reads Q (.error failure) [] := fun failure hfailure => ⟨rfl, hfailure⟩
  unfold mergeFiles
  split
  · refine EndsWith.reads (ends_writeTree hfiles _) (fun ours hours => ?_) hquiet
    rw [hmainTree] at hours
    have origin : Origin := ⟨[], fun _ => false, by simp⟩
    refine .pure ⟨rfl, fun tree htree id => ?_⟩
    obtain rfl := MergeResult.merged.inj htree
    exact ⟨main, ours, rfl, .inl rfl, hours, mergedIn_self origin⟩
  · next base main hbase =>
    obtain ⟨rfl, rfl⟩ := baseOf_eq hbase
    split
    · exact .throw ⟨rfl, nofun, nofun⟩
    · refine EndsWith.reads (Q := fun reached => reached = true → Reachable objects base main)
        (ends_reading fun origin reached h heq => ⟨origin, heq ▸ h⟩) (fun reached hreached => ?_)
        hquiet
      cases reached with
      | false => exact .throw ⟨rfl, nofun, nofun⟩
      | true =>
        refine EndsWith.reads (ends_treeOf base) ?_ hquiet
        rintro baseTree rfl
        refine EndsWith.reads (ends_writeTree hfiles _) (fun ours hours => ?_) hquiet
        refine (ends_merge _ _ _).mono fun result events hmerge => ?_
        cases result with
        | error failure => exact hmerge
        | ok result =>
          have hbase : ∀ sha, some base = some sha → Reachable objects sha main :=
            fun sha hsha => Option.some.inj hsha ▸ hreached rfl
          rw [hmainTree] at hmerge
          exact ⟨hmerge.1, fun tree htree id => ⟨some base, ours, rfl,
            .inr ⟨main, rfl, rfl, hbase⟩, hours, hmerge.2 tree htree⟩⟩

theorem ends_filesRound (hfiles : Files changes) (input : FilesInput) :
    EndsWith (filesRound objects trees localeLe diff3Merge blobId treeId commitId isIgnored changes
      input)
      (Lost (Allowed objects trees input.toPublishInput
          (FilesPlanned objects trees diff3Merge blobId changes input.base))
        (Last objects trees commitId input.toPublishInput
          (FilesPlanned objects trees diff3Merge blobId changes input.base)
          fun _ tail => tail = [])) := by
  refine @ends_attempt _ _ [] _ _ ((ends_resolveRef mainRef).bind ?_ ?_)
  · rintro main _ ⟨rfl, -, hmain⟩
    have hreads : OnlyReads [.read mainRef main] :=
      fun event hevent => ⟨_, _, mem_singleton.mp hevent⟩
    have hquiet : ∀ failure, Quiet failure → Tried (Allowed objects trees input.toPublishInput
          (FilesPlanned objects trees diff3Merge blobId changes input.base))
        (Last objects trees commitId input.toPublishInput
          (FilesPlanned objects trees diff3Merge blobId changes input.base) fun _ tail => tail = [])
        (.error failure) [.read mainRef main] :=
      fun failure hfailure => .of_quiet hfailure (.failed hfailure.2 (.inl hreads))
    refine EndsWith.reads (ends_treeOfTip main) (fun mainTree hmainTree => ?_) hquiet
    refine EndsWith.reads (Q := fun _ => True)
      (ends_mapped (fun _ => ⟨nofun, nofun⟩) fun _ _ _ => trivial) (fun ignored _ => ?_) hquiet
    split
    · exact .throw (hquiet _ ⟨nofun, nofun⟩)
    · refine EndsWith.reads (ends_mergeFiles hfiles input.base hmainTree)
        (fun result hresult => ?_) hquiet
      rcases result with tree | conflicts
      · dsimp only
        split
        · exact .pure (.of_some (.of_nothing hreads rfl))
        · refine (ends_commitOnMain _ (hresult tree rfl (treeId tree)) hmainTree hmain).bind
            (fun sha events hdeployed => ?_)
            fun failure events hcommitted => .of_error hcommitted.1 hcommitted.2
          refine .pure (.of_some (.of_deployed ?_ rfl))
          rw [append_nil]
          exact hdeployed
      · exact .pure (.of_some (.conflict hreads))
  · rintro failure _ ⟨rfl, hfailure⟩
    exact .of_quiet hfailure (.failed hfailure.2 (.inl nofun))

end

/-! ## What is not promised -/

/-- A commit without a tree, which `main` and a member's draft are at. -/
def zeroSha : Sha := List.replicate 40 '0'

def zeroCommit (_ : CommitData) : { sha : Sha // isSha sha = true } := ⟨zeroSha, by decide⟩

def draftedOrigin : Origin where
  refs := [(mainRef, zeroSha), (draftRef "m", zeroSha)]
  stored := fun _ => true
  refKeys := by decide +kernel

/-- The refs that were written or deleted. -/
def movedRefs (events : List Event) : List (List Char) :=
  events.filterMap fun
    | .wrote ref _ _ => some ref
    | _ => none

def publishZero (contest : Contest Site Fault Event) :
    Except PublishFailure DraftPublishResult × Contest Site Fault Event :=
  runOn (publish (fun _ => ⟨.commit, []⟩) (fun _ => []) (fun _ _ => true) (fun _ _ _ => [])
    (fun _ => zeroSha) (fun _ => zeroSha) zeroCommit (fun _ _ => .ok false) (some "m")
    ⟨[], [], [], none⟩) contest

/-- A tree of one submodule, at a commit. -/
def submoduleTree (digit : Char) : Tree :=
  [(['a'], .leaf ⟨List.replicate 40 digit, submoduleMode⟩)]

end Publishing

end Catamorphic.Git
