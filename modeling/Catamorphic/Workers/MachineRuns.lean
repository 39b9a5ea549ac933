import Catamorphic.Workers.MachineTracking

/-!
# Runs of the machine passes

What every step keeps holds in every run without the orders of steps that break it: no machine is
lost, none is doubled, and a name is used again when its former machine is gone.
-/

namespace Catamorphic.Workers.Machines

open Runs Table Option Function Bool

variable {w w' : World} {platform : Platform} {ttl : Nat} {name : Name} {code : Code}
  {phase : Phase}

/-! ## Steps of a pass -/

section

variable (h : Tracked platform w)
include h

theorem Tracked.settle {id : PassId} {work : Work} {retained : Bool}
    (hpass : w.passes id = some ⟨name, phase⟩) :
    Tracked platform (w.settle id name work retained) := by
  rw [World.settle]
  cases work.rest with
  | nil =>
    split_ifs
    · exact h.ends id
    · exact h.ends id
    · exact h.rests hpass trivial rfl rfl rfl
  | cons machine rest =>
    dsimp only
    cases machine.state with
    | enrolled | pending =>
      dsimp only
      split_ifs
      · exact h.rests hpass trivial rfl rfl rfl
      · exact h.rests hpass trivial rfl rfl rfl
    | expired | revoked => exact h.rests hpass trivial rfl rfl rfl

theorem Tracked.fail {id : PassId}
    (hpass : w.passes id = some ⟨name, phase⟩) : Tracked platform (w.fail id name phase) := by
  cases phase with
  | draining _ work | expiring _ work | unprovisioning _ work | forgetting work | canceling work =>
    exact h.rests hpass trivial rfl rfl rfl
  | _ => exact h.ends id

/-- While a pass forgets the machines of a name, none is there and none is created. -/
theorem Tracked.idle {id : PassId} {pass : Pass}
    (hpass : w.passes id = some pass) (hforgets : pass.phase.forgets = true) (code : Code) :
    ¬w.Active code pass.name := by
  have hgone : ∀ code machine, w.machines code = some machine → machine.name = pass.name →
      machine.standing = .gone := by
    have hold := h.holds id pass hpass
    obtain ⟨name, phase⟩ := pass
    cases phase with
    | forgetting _ => exact hold
    | canceling _ => exact hold
    | _ => cases hforgets
  rintro (⟨machine, hmachine, hname, hstanding⟩ | ⟨id', pass', hpass', hname, hof⟩)
  · exact hstanding (hgone code machine hmachine hname)
  · exact h.apart id' id pass' pass code hpass' hpass hof hforgets hname

omit h in
/-- After a destruction that is done, no machine of the name is there. -/
theorem gone_destroy {ref : Option Ref} {machine : Machine}
    (h : (w.destroy platform name ref).machines code = some machine) (hname : machine.name = name) :
    machine.standing = .gone := by
  obtain ⟨old, -, rfl⟩ := map_eq_some_iff.mp h
  split_ifs with hdestroyed
  · rfl
  · rw [if_neg hdestroyed] at hname
    exact absurd (.inl hname) hdestroyed

/-- A name that no code waits for. -/
theorem unused_of_waiting (hwaiting : w.waiting name = false)
    (code : Code) : ¬w.Unused code name := by
  rintro ⟨row, hrow, hname, hused⟩
  rw [World.waiting, List.any_eq_false] at hwaiting
  have hlt := h.issued_lt code _ (h.enrollment code row hrow).1
  have hno := hwaiting code (List.mem_range.mpr hlt)
  rw [hrow, any_some, decide_eq_true hname, hused] at hno
  exact hno rfl

omit h in
theorem vacant_of_any
    (hany : ¬((w.workers name).any fun row => !row.revoked) = true) : w.Vacant name := by
  intro row hrow
  rw [hrow, any_some] at hany
  exact not_eq_false _ |>.mp fun hrevoked => hany (by rw [hrevoked]; rfl)

omit h in
theorem ends_insert {id : PassId} {expiresAt : Nat} :
    ((w.ends id).insert name expiresAt).goesOn id name phase =
      (w.insert name expiresAt).goesOn id name phase := by
  rw [World.goesOn, World.goesOn]
  dsimp only [World.insert, World.ends]
  rw [update_idem]

/-- The lock is held, and no revoked machine of the name waits: the code is the only one. -/
theorem Tracked.issue {id : PassId} (expiresAt : Nat)
    (hpass : w.passes id = some ⟨name, .inserting⟩)
    (hforgets : w.anyPass name Phase.forgets = false)
    (hwaits : ((w.workers name).all fun row => !row.revoked || row.destroyed) = true) :
    Tracked platform ((w.insert name expiresAt).goesOn id name (.provisioning w.nextCode)) := by
  obtain ⟨hvacant, hnone⟩ := h.holds id _ hpass
  rw [← ends_insert]
  refine (h.ends id).insert expiresAt (h.passes_lt id _ hpass) hnone ?_ ?_ ?_
  · intro row hrow
    have hrow' : w.workers name = some row := hrow
    rw [hrow', all_some, hvacant row hrow, Bool.not_true, Bool.false_or] at hwaits
    exact hwaits
  · exact fun id' pass hpass' => anyPass_eq_false h hforgets (ends_passes hpass').2
  · intro id' pass hpass' hname
    obtain ⟨hne, hold⟩ := ends_passes hpass'
    exact eq_false_iff.mpr fun hlock => hne (h.lock id' id _ _ hold hpass hname hlock rfl)

/-- The reference is recorded with the code; the machine has not enrolled. -/
theorem Tracked.recordCode {id : PassId} (hpass : w.passes id = some ⟨name, .recording code⟩)
    (hunused : ((w.enrollments code).any fun row => row.used) = false) :
    Tracked platform ((w.recordRef code (platform.ref code)).setRecorded code) := by
  have hlt : code < w.nextCode := h.issued_lt code name (h.code id _ code hpass rfl)
  refine (h.recordRef code).setRecorded hlt (fun row => recordRef_row) fun other row hrow hcode =>
    ?_
  obtain ⟨enrollment, henrollment, hused⟩ := (h.worker other row hrow).used
  rw [hcode] at henrollment
  rw [henrollment, any_some, hused] at hunused
  cases hunused

/-- The reference is recorded with the worker of the machine. -/
theorem Tracked.recordWorker {id : PassId}
    (hpass : w.passes id = some ⟨name, .recordingWorker code⟩)
    (hown : ((w.workers name).all fun row =>
      if row.code = code then !row.revoked else row.revoked || row.ref.isSome) = true) :
    Tracked platform ((w.recordWorkerRef name (platform.ref code)).setRecorded code) := by
  have hissued : w.issued code = some name := h.code id _ code hpass rfl
  have hother : ∀ row, w.workers name = some row → row.code ≠ code →
      row.revoked = true ∨ row.ref ≠ none := by
    intro row hrow hne
    rw [hrow, all_some, if_neg hne, or_eq_true, isSome_iff_ne_none] at hown
    exact hown
  refine (h.recordWorkerRef hother).setRecorded (h.issued_lt code name hissued)
    (h.holds id _ hpass) fun other row' hrow' hcode => ?_
  by_cases hsame : other = name
  · subst hsame
    have hupdate : update w.workers other ((w.workers other).map fun row =>
        if !row.revoked ∧ row.ref = none then { row with ref := some (platform.ref code) }
        else row) other = some row' := hrow'
    rw [update_self] at hupdate
    obtain ⟨row, hrow, rfl⟩ := map_eq_some_iff.mp hupdate
    have hcode' : row.code = code := by
      split_ifs at hcode
      · exact hcode
      · exact hcode
    rw [hrow, all_some, if_pos hcode'] at hown
    rcases (h.worker other row hrow).ref with hset | ⟨hnone, -⟩
    · have hnot : ¬((!row.revoked) = true ∧ row.ref = none) :=
        fun hnone => absurd (hset.symm.trans hnone.2) (some_ne_none _)
      rw [if_neg hnot, hset, hcode']
    · rw [if_pos ⟨hown, hnone⟩]
  · -- A worker of another name is of another code.
    have hrow : w.workers other = some row' := (update_of_ne hsame ..).symm.trans hrow'
    have hof := (h.worker other row' hrow).issued
    rw [hcode, hissued, some.injEq] at hof
    exact absurd hof.symm hsame

/-- The platform refused, and the code it was asked with is withdrawn. -/
theorem Tracked.withdraw {id : PassId} (hpass : w.passes id = some ⟨name, .refused code⟩) :
    Tracked platform ((w.cancelEnrollments name).ends id) := by
  have hnone : w.machines code = none := h.holds id _ hpass
  have hself : w.Unused code name := by
    rcases h.tracked code name (.inr ⟨id, _, hpass, rfl, rfl⟩) with hunused | ⟨row, hrow, rfl, -⟩
    · exact hunused
    · obtain ⟨machine, hmachine, -⟩ := (h.worker name row hrow).machine
      rw [hnone] at hmachine
      cases hmachine
  refine (h.ends id).cancelEnrollments fun other hunused => ?_
  obtain rfl : other = code := h.one other code name hunused hself
  rintro (⟨machine, hmachine, -⟩ | ⟨id', pass, hpass', -, hof⟩)
  · exact absurd (hnone.symm.trans hmachine) (some_ne_none _).symm
  · obtain ⟨hne, hold⟩ := ends_passes hpass'
    exact hne (h.once id' id pass _ other hold hpass (creates_code hof) rfl)

/-- A step of a pass keeps what holds, unless it is one of those. -/
theorem Tracked.proceed {id : PassId} {answer : Bool} (hpass : w.passes id = some ⟨name, phase⟩)
    (hkeeps : Action.keepsMachines w (.proceed id answer) = true)
    (hstep : w.proceed platform ttl id answer name phase = some w') : Tracked platform w' := by
  have hholds := h.holds id _ hpass
  rw [Action.keepsMachines, hpass] at hkeeps
  cases phase with
  | listing wanted workers enrollments =>
    rw [World.proceed] at hstep
    split at hstep
    · cases hstep
      exact h.rests hpass trivial rfl rfl rfl
    · cases hstep
      exact h.rests hpass trivial rfl rfl rfl
  | settling work =>
    cases hstep
    exact h.settle hpass
  | draining machine work =>
    rw [World.proceed] at hstep
    split at hstep
    · cases hstep
      exact (h.revoke name).rests hpass trivial rfl rfl rfl
    · cases hstep
      exact h.rests hpass trivial rfl rfl rfl
  | expiring machine work =>
    cases hstep
    exact (h.expireEnrollments name).rests hpass trivial rfl rfl rfl
  | unprovisioning machine work =>
    cases answer with
    | false =>
      cases hstep
      exact h.rests hpass trivial rfl rfl rfl
    | true =>
      cases hstep
      have hcreates := (not_eq_true' _).mp hkeeps
      refine (h.destroy name machine.ref).goesOn hpass (fun _ _ => gone_destroy) nofun nofun
        nofun
        fun _ id' pass hpass' hname => ?_
      exact not_isSome_iff_eq_none.mp
        (eq_false_iff.mp (anyPass_eq_false h hcreates hpass' hname))
  | forgetting work =>
    cases hstep
    have hidle := h.idle hpass rfl
    refine (h.forget hidle).goesOn hpass hholds nofun nofun nofun fun _ id' pass hpass' hname =>
      ?_
    refine eq_none_iff_forall_ne_some.mpr fun code hof => ?_
    exact hidle code (.inr ⟨id', pass, hpass', hname, hof⟩)
  | canceling work =>
    cases hstep
    have hidle := h.idle hpass rfl
    exact (h.cancelEnrollments fun code _ => hidle code).rests hpass trivial rfl rfl rfl
  | issuing =>
    rw [World.proceed] at hstep
    split at hstep
    · cases hstep
    · rename_i hlocks
      split at hstep
      · cases hstep
        exact h.ends id
      · rename_i hany
        cases hstep
        refine h.goesOn hpass (vacant_of_any hany) nofun nofun
          (fun _ id' pass hpass' hname hlock => ?_) nofun
        rw [anyPass_eq_false h (eq_false_iff.mpr hlocks) hpass' hname] at hlock
        cases hlock
  | checking =>
    cases hstep
    split
    · exact h.ends id
    · rename_i hwaiting
      have hnone := unused_of_waiting h (eq_false_iff.mpr hwaiting)
      refine h.goesOn hpass ⟨hholds, hnone⟩ nofun nofun
        (fun _ id' pass hpass' hname hlock => ?_) nofun
      exact h.lock id' id _ _ hpass' hpass hname hlock rfl
  | inserting =>
    cases hstep
    obtain ⟨hforgets, hwaits⟩ := (and_eq_true _ _).mp hkeeps
    exact h.issue (w.now + ttl) hpass ((not_eq_true' _).mp hforgets) hwaits
  | provisioning code =>
    cases hstep
    have hnext : Tracked platform (w.goesOn id name (.awaiting code)) :=
      h.goesOn hpass trivial (fun _ hof => hof) (fun _ hof => hof) nofun nofun
    exact hnext.ask (update_self ..) hholds
  | awaiting code =>
    rw [World.proceed] at hstep
    cases hmachine : w.machines code with
    | none =>
      rw [hmachine] at hstep
      cases hstep
    | some machine =>
      rw [hmachine] at hstep
      dsimp only at hstep
      split at hstep
      · split at hstep
        · cases hstep
        · cases hstep
          exact h.goesOn hpass trivial (fun _ hof => hof) nofun nofun nofun
      · split at hstep
        · rename_i hasked
          cases hstep
          exact (h.refuse hmachine hasked).goesOn hpass (update_self ..)
            (fun _ hof => hof) (fun _ hof => hof) nofun nofun
        · cases hstep
  | recording code =>
    rw [World.proceed] at hstep
    split at hstep
    · cases hstep
      exact (h.recordRef code).goesOn hpass (fun row => recordRef_row) (fun _ hof => hof) nofun
        nofun nofun
    · rename_i hunused
      cases hstep
      exact (h.recordCode hpass (eq_false_iff.mpr hunused)).ends id
  | recordingWorker code =>
    cases hstep
    exact (h.recordWorker hpass hkeeps).ends id
  | refused code =>
    cases hstep
    exact h.withdraw hpass

end

/-- **A step that is none of those keeps what holds.** -/
theorem tracked_step {action : Action} (h : Tracked platform w)
    (hkeeps : action.keepsMachines w = true) (hstep : step platform ttl w action = some w') :
    Tracked platform w' := by
  cases action with
  | tick now =>
    rw [step, ite_none_right_eq_some] at hstep
    obtain rfl := some.inj hstep.2
    exact { h with worker := fun name row hrow =>
      ⟨(h.worker name row hrow).issued, (h.worker name row hrow).used,
        (h.worker name row hrow).machine, (h.worker name row hrow).destroyed,
        (h.worker name row hrow).ref⟩ }
  | pass name wanted =>
    cases hstep
    exact h.begin name wanted
  | proceed id answer =>
    obtain ⟨pass, hpass, hproceed⟩ := bind_eq_some_iff.mp hstep
    exact h.proceed hpass hkeeps hproceed
  | fail id =>
    obtain ⟨pass, hpass, rfl⟩ := map_eq_some_iff.mp hstep
    exact h.fail hpass
  | stop id =>
    obtain ⟨pass, hpass, rfl⟩ := map_eq_some_iff.mp hstep
    exact h.ends id
  | create code | vanish code =>
    rw [step] at hstep
    cases hmachine : w.machines code with
    | none =>
      rw [hmachine] at hstep
      cases hstep
    | some machine =>
      rw [hmachine, ite_none_right_eq_some] at hstep
      obtain rfl := some.inj hstep.2
      exact h.setMachine hmachine (by rw [hstep.1]; nofun) nofun
  | enroll code =>
    rw [step] at hstep
    cases hrow : w.enrollments code with
    | none =>
      rw [hrow] at hstep
      cases hstep
    | some row =>
      rw [Action.keepsMachines, hrow, all_some] at hkeeps
      rw [hrow, ite_none_right_eq_some] at hstep
      obtain ⟨hguard, hstep⟩ := hstep
      cases hstep
      simp only [and_eq_true, any_eq_true, not_eq_true'] at hguard
      obtain ⟨⟨⟨⟨machine, hmachine, hthere⟩, hused⟩, -⟩, -⟩ := hguard
      refine h.enroll hrow hused hmachine (of_decide_eq_true hthere) fun id pass hpass hname =>
        ?_
      exact of_decide_eq_false (anyPass_eq_false h ((not_eq_true' _).mp hkeeps) hpass hname)
  | revoke name =>
    cases hstep
    exact h.revoke name

/-! ## Runs -/

/-- A code that works. -/
def World.Pending (w : World) (code : Code) (name : Name) : Prop :=
  ∃ row, w.enrollments code = some row ∧ row.name = name ∧ row.used = false ∧ w.now < row.expiresAt

def World.Enrolled (w : World) (name : Name) : Prop :=
  ∃ row, w.workers name = some row ∧ row.revoked = false

/-- The machine of the code is listed, with its reference when that was recorded. -/
def World.Listed (platform : Platform) (w : World) (code : Code) (name : Name) : Prop :=
  ∃ ref, (w.recorded code = true → ref = some (platform.ref code)) ∧
    ((∃ row, w.enrollments code = some row ∧ row.name = name ∧ row.used = false ∧ row.ref = ref) ∨
      ∃ row, w.workers name = some row ∧ row.code = code ∧ row.destroyed = false ∧ row.ref = ref)

theorem Tracked.listed (h : Tracked platform w)
    (hactive : w.Active code name) : w.Listed platform code name := by
  have href : ∀ ref, w.RefHolds platform code ref → w.recorded code = true →
      ref = some (platform.ref code) := by
    intro ref href hrecorded
    refine href.resolve_right fun hnone => ?_
    rw [hrecorded] at hnone
    cases hnone.2
  rcases h.tracked code name hactive with ⟨row, hrow, hname, hused⟩ | ⟨row, hrow, rfl, hdestroyed⟩
  · exact ⟨row.ref, href row.ref (h.enrollment code row hrow).2, .inl
      ⟨row, hrow, hname, hused, rfl⟩⟩
  · exact ⟨row.ref, href row.ref (h.worker name row hrow).ref, .inr
      ⟨row, hrow, rfl, hdestroyed, rfl⟩⟩

/--
In every run without those orders of steps: every machine that its platform has or may still
create is listed, with its reference once that was recorded; a name has one code that works, and
none while a machine of it is enrolled; and once a code is issued for a name, the machines of the
codes before are gone.
-/
theorem machines_of_runs {now : Nat}
    (h : Reach (step platform ttl) (fun w action => action.keepsMachines w = true) (empty now) w) :
    (∀ code machine, w.machines code = some machine → machine.standing ≠ .gone →
      w.Listed platform code machine.name) ∧
      (∀ name code, w.Pending code name →
        (∀ code', w.Pending code' name → code' = code) ∧ ¬w.Enrolled name) ∧
      ∀ name code code', w.issued code = some name → w.issued code' = some name → code < code' →
        ∀ machine, w.machines code = some machine → machine.standing = .gone := by
  have hw : Tracked platform w := h.invariant (tracked_empty now) fun _ _ _ => tracked_step
  have hunused : ∀ {code name}, w.Pending code name → w.Unused code name :=
    fun ⟨row, hrow, hname, hused, _⟩ => ⟨row, hrow, hname, hused⟩
  refine ⟨fun code machine hmachine hstanding => hw.listed
    (.inl ⟨machine, hmachine, rfl, hstanding⟩),
    fun name code hpending => ⟨fun code' hpending' => ?_, ?_⟩, ?_⟩
  · exact hw.one code' code name (hunused hpending') (hunused hpending)
  · rintro ⟨row, hrow, hrevoked⟩
    have hdestroyed := hw.free code name row (hunused hpending) hrow
    rw [(hw.worker name row hrow).destroyed hdestroyed] at hrevoked
    cases hrevoked
  · intro name code code' hissued hissued' hlt machine hmachine
    refine Classical.not_not.mp fun hstanding => ?_
    have hname : machine.name = name :=
      some.inj ((hw.machine code machine hmachine).symm.trans hissued)
    have hle := hw.latest code code' name (.inl ⟨machine, hmachine, hname, hstanding⟩) hissued'
    exact absurd hlt (Nat.not_lt.mpr hle)

/-- A platform whose references are the codes. -/
def plainPlatform : Platform := ⟨id⟩

/-- Both reads of a pass that just came to a name. -/
def listing (id : PassId) : List Action :=
  [.proceed id true, .proceed id false]

/-- A pass that found nothing creates a machine, to the platform's answer. -/
def creating (id : PassId) (code : Code) : List Action :=
  List.replicate 5 (.proceed id true) ++ [.create code]

/-- A pass that found one machine that is lost destroys it, to the confirmation. -/
def destroying (id : PassId) : List Action :=
  List.replicate 2 (.proceed id true)

theorem machines_of_runs_again :
    ∃ w, execOk (step plainPlatform 60) (fun w action => action.keepsMachines w = true) (empty 0)
        (.pass 7 true :: listing 0 ++ creating 0 0 ++ [.proceed 0 true, .proceed 0 true, .enroll 0,
          .revoke 7, .pass 7 true] ++ listing 1 ++ destroying 1 ++
          [.proceed 1 true, .proceed 1 true] ++ creating 1 1) = some w ∧
      w.machines 0 = some ⟨7, .gone⟩ ∧ w.machines 1 = some ⟨7, .there⟩ ∧
      (∀ code machine, w.machines code = some machine → machine.standing ≠ .gone →
        w.Listed plainPlatform code machine.name) ∧
      (∀ name code, w.Pending code name →
        (∀ code', w.Pending code' name → code' = code) ∧ ¬w.Enrolled name) ∧
      ∀ name code code', w.issued code = some name → w.issued code' = some name → code < code' →
        ∀ machine, w.machines code = some machine → machine.standing = .gone := by
  have hrun : (execOk (step plainPlatform 60) (fun w action => action.keepsMachines w = true)
      (empty 0) (.pass 7 true :: listing 0 ++ creating 0 0 ++ [.proceed 0 true, .proceed 0 true,
        .enroll 0, .revoke 7, .pass 7 true] ++ listing 1 ++ destroying 1 ++
        [.proceed 1 true, .proceed 1 true] ++ creating 1 1)).map
        (fun w => (w.machines 0, w.machines 1)) = some (some ⟨7, .gone⟩, some ⟨7, .there⟩) := by
    decide +kernel
  obtain ⟨w, hw, hmachines⟩ := map_eq_some_iff.mp hrun
  obtain ⟨hgone, hthere⟩ := Prod.mk.inj hmachines
  exact ⟨w, hw, hgone, hthere, machines_of_runs (reach_of_execOk hw)⟩

/-- The code 0, whose machine is there and whose answer was lost, is expired. -/
def lostAnswer : List Action :=
  .pass 7 true :: listing 0 ++ creating 0 0 ++ [.fail 0, .tick 60]

/--
A pass that lost its claim after a confirmed destruction forgets the name when the next pass has
created its machine: the code is withdrawn, and the machine is not listed. A pass that looks for a
worker before the machine of another pass enrolls, and for a code after it, issues a second code.
-/
theorem machine_left :
    (∃ w, exec (step plainPlatform 60) (empty 0) (lostAnswer ++ .pass 7 true :: listing 1 ++
        destroying 1 ++ .pass 7 true :: listing 2 ++ destroying 2 ++
        [.proceed 2 true, .proceed 2 true] ++ creating 2 1 ++
        [.proceed 1 true, .proceed 1 true]) = some w ∧
      w.machines 1 = some ⟨7, .there⟩ ∧ ¬w.Listed plainPlatform 1 7) ∧
    ∃ w, exec (step plainPlatform 60) (empty 0) (.pass 7 true :: .pass 7 true :: listing 0 ++
        listing 1 ++ creating 0 0 ++ [.proceed 1 true, .proceed 1 true, .enroll 0, .proceed 1 true,
          .proceed 1 true]) = some w ∧
      w.Pending 1 7 ∧ w.Enrolled 7 ∧ w.machines 0 = some ⟨7, .there⟩ := by
  have hlost : (exec (step plainPlatform 60) (empty 0) (lostAnswer ++ .pass 7 true :: listing 1 ++
      destroying 1 ++ .pass 7 true :: listing 2 ++ destroying 2 ++
      [.proceed 2 true, .proceed 2 true] ++ creating 2 1 ++
      [.proceed 1 true, .proceed 1 true])).map
      (fun w => (w.machines 1, w.enrollments 1, w.workers 7)) =
        some (some ⟨7, .there⟩, none, none) := by
    decide +kernel
  have hdoubled : (exec (step plainPlatform 60) (empty 0) (.pass 7 true :: .pass 7 true ::
      listing 0 ++ listing 1 ++ creating 0 0 ++ [.proceed 1 true, .proceed 1 true, .enroll 0,
        .proceed 1 true, .proceed 1 true])).map
      (fun w => (w.now, w.enrollments 1, w.workers 7, w.machines 0)) =
        some (0, some { name := 7, expiresAt := 60 }, some { code := 0, ref := none },
          some ⟨7, .there⟩) := by
    decide +kernel
  obtain ⟨w, hw, hleft⟩ := map_eq_some_iff.mp hlost
  obtain ⟨w', hw', hleft'⟩ := map_eq_some_iff.mp hdoubled
  simp only [Prod.mk.injEq] at hleft hleft'
  obtain ⟨hthere, henrollment, hworker⟩ := hleft
  obtain ⟨hnow, henrollment', hworker', hthere'⟩ := hleft'
  refine ⟨⟨w, hw, hthere, ?_⟩, w', hw', ⟨_, henrollment', rfl, rfl, ?_⟩, ⟨_, hworker', rfl⟩,
    hthere'⟩
  · rintro ⟨ref, -, ⟨row, hrow, -⟩ | ⟨row, hrow, -⟩⟩
    · exact absurd (henrollment.symm.trans hrow) (some_ne_none _).symm
    · exact absurd (hworker.symm.trans hrow) (some_ne_none _).symm
  · rw [hnow]
    decide

end Catamorphic.Workers.Machines
