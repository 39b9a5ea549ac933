import Catamorphic.Lib.Table
import Catamorphic.Workers.Machines

/-!
# Machines stay tracked

A machine that its platform may have created is listed by its unused code or by its worker's row,
and it is the latest of its name. Passes that work on one name in the wrong order break both: a
machine that is destroyed while another of its name is created, and a code that is issued while the
former machine is still being forgotten. In a run without these orders every step keeps them.
-/

namespace Catamorphic.Workers.Machines

open Table Option

/-- The code that a pass works with. -/
def Phase.code : Phase → Option Code
  | .provisioning code => some code
  | .awaiting code => some code
  | .recording code => some code
  | .recordingWorker code => some code
  | .refused code => some code
  | _ => none

/-- The code that a pass creates a machine with, until the platform answered. -/
def Phase.creates : Phase → Option Code
  | .provisioning code => some code
  | .awaiting code => some code
  | .refused code => some code
  | _ => none

def Phase.forgets : Phase → Bool
  | .forgetting _ => true
  | .canceling _ => true
  | _ => false

/-- What must not happen: the platform is asked to destroy the machines of a name while a pass
creates one; a code is issued while a pass forgets the machines of its name, or while a revoked one
waits to be destroyed; a reference comes when the machine's worker is revoked; a machine enrolls
while its name is looked up for another code. -/
def Action.keepsMachines (w : World) : Action → Bool
  | .proceed id answer =>
    match w.passes id with
    | some ⟨name, .unprovisioning _ _⟩ =>
      !answer || !w.anyPass name fun phase => phase.creates.isSome
    | some ⟨name, .inserting⟩ =>
      !(w.anyPass name Phase.forgets) &&
        (w.workers name).all fun row => !row.revoked || row.destroyed
    | some ⟨name, .recordingWorker code⟩ =>
      (w.workers name).all fun row =>
        if row.code = code then !row.revoked else row.revoked || row.ref.isSome
    | _ => true
  | .enroll code =>
    (w.enrollments code).all fun row => !w.anyPass row.name fun phase => phase = .checking
  | _ => true

variable {w w' : World} {platform : Platform} {ttl : Nat}

/-! ## What holds of machines -/

/-- A code of the name that no machine enrolled with. -/
def World.Unused (w : World) (code : Code) (name : Name) : Prop :=
  ∃ row, w.enrollments code = some row ∧ row.name = name ∧ row.used = false

/-- The machine is listed. -/
def World.Tracks (w : World) (code : Code) (name : Name) : Prop :=
  w.Unused code name ∨
    ∃ row, w.workers name = some row ∧ row.code = code ∧ row.destroyed = false

/-- The platform has the machine or may still create it, or a pass is about to ask for it. -/
def World.Active (w : World) (code : Code) (name : Name) : Prop :=
  (∃ machine, w.machines code = some machine ∧ machine.name = name ∧ machine.standing ≠ .gone) ∨
    ∃ id pass, w.passes id = some pass ∧ pass.name = name ∧ pass.phase.creates = some code

/-- A reference is the platform's, and it is there when it was recorded. -/
def World.RefHolds (platform : Platform) (w : World) (code : Code) (ref : Option Ref) : Prop :=
  ref = some (platform.ref code) ∨ ref = none ∧ w.recorded code = false

structure World.WorkerHolds (platform : Platform) (w : World) (name : Name) (row : Worker) :
    Prop where
  issued : w.issued row.code = some name
  used : ∃ enrollment, w.enrollments row.code = some enrollment ∧ enrollment.used = true
  machine : ∃ machine, w.machines row.code = some machine ∧ machine.standing ≠ .asked
  destroyed : row.destroyed = true → row.revoked = true
  ref : w.RefHolds platform row.code row.ref

def World.Vacant (w : World) (name : Name) : Prop :=
  ∀ row, w.workers name = some row → row.revoked = true

/-- What a pass at its next step relies on. -/
def World.Holds (platform : Platform) (w : World) (name : Name) : Phase → Prop
  | .checking => w.Vacant name
  | .inserting => w.Vacant name ∧ ∀ code, ¬w.Unused code name
  | .provisioning code => w.machines code = none
  | .refused code => w.machines code = none
  | .recordingWorker code =>
    ∀ row, w.enrollments code = some row → row.ref = some (platform.ref code)
  | .forgetting _ =>
    ∀ code machine, w.machines code = some machine → machine.name = name →
      machine.standing = .gone
  | .canceling _ =>
    ∀ code machine, w.machines code = some machine → machine.name = name →
      machine.standing = .gone
  | _ => True

structure Tracked (platform : Platform) (w : World) : Prop where
  issued_lt : ∀ code name, w.issued code = some name → code < w.nextCode
  recorded_lt : ∀ code, w.recorded code = true → code < w.nextCode
  enrollment : ∀ code row, w.enrollments code = some row →
    w.issued code = some row.name ∧ w.RefHolds platform code row.ref
  worker : ∀ name row, w.workers name = some row → w.WorkerHolds platform name row
  machine : ∀ code machine, w.machines code = some machine → w.issued code = some machine.name
  /-- A name has one unused code, and none while a machine of it is listed as a worker. -/
  one : ∀ code code' name, w.Unused code name → w.Unused code' name → code = code'
  free : ∀ code name row, w.Unused code name → w.workers name = some row → row.destroyed = true
  tracked : ∀ code name, w.Active code name → w.Tracks code name
  latest : ∀ code code' name, w.Active code name → w.issued code' = some name → code' ≤ code
  passes_lt : ∀ id pass, w.passes id = some pass → id < w.nextPass
  code : ∀ id pass code, w.passes id = some pass → pass.phase.code = some code →
    w.issued code = some pass.name
  once : ∀ id id' pass pass' code, w.passes id = some pass → w.passes id' = some pass' →
    pass.phase.code = some code → pass'.phase.code = some code → id = id'
  lock : ∀ id id' pass pass', w.passes id = some pass → w.passes id' = some pass' →
    pass.name = pass'.name → pass.phase.locks = true → pass'.phase.locks = true → id = id'
  apart : ∀ id id' pass pass' code, w.passes id = some pass → w.passes id' = some pass' →
    pass.phase.creates = some code → pass'.phase.forgets = true → pass.name ≠ pass'.name
  holds : ∀ id pass, w.passes id = some pass → w.Holds platform pass.name pass.phase

theorem tracked_empty (now : Nat) : Tracked platform (empty now) where
  issued_lt := fun _ _ h => absurd h (some_ne_none _).symm
  recorded_lt := fun _ h => absurd h Bool.false_ne_true
  enrollment := fun _ _ h => absurd h (some_ne_none _).symm
  worker := fun _ _ h => absurd h (some_ne_none _).symm
  machine := fun _ _ h => absurd h (some_ne_none _).symm
  one := fun _ _ _ ⟨_, h, _⟩ => absurd h (some_ne_none _).symm
  free := fun _ _ _ _ h => absurd h (some_ne_none _).symm
  tracked := by
    rintro code name (⟨machine, h, -⟩ | ⟨id, pass, h, -⟩)
    · exact absurd h (some_ne_none _).symm
    · exact absurd h (some_ne_none _).symm
  latest := fun _ _ _ _ h => absurd h (some_ne_none _).symm
  passes_lt := fun _ _ h => absurd h (some_ne_none _).symm
  code := fun _ _ _ h => absurd h (some_ne_none _).symm
  once := fun _ _ _ _ _ h => absurd h (some_ne_none _).symm
  lock := fun _ _ _ _ h => absurd h (some_ne_none _).symm
  apart := fun _ _ _ _ _ h => absurd h (some_ne_none _).symm
  holds := fun _ _ h => absurd h (some_ne_none _).symm

variable {phase : Phase} {code : Code}

theorem creates_code (h : phase.creates = some code) : phase.code = some code := by
  cases phase <;> first | exact h | cases h

variable {name : Name} {id : PassId} {pass : Pass} {passes : PassId → Option Pass} {nextPass : Nat}
  {id' : PassId}

theorem anyPass_eq_false {which : Phase → Bool} (h : Tracked platform w)
    (hany : w.anyPass name which = false) (hpass : w.passes id = some pass)
    (hname : pass.name = name) : which pass.phase = false := by
  rw [World.anyPass, List.any_eq_false] at hany
  have hno := hany id (List.mem_range.mpr (h.passes_lt id pass hpass))
  rw [hpass, any_some, decide_eq_true hname, Bool.true_and] at hno
  exact Bool.eq_false_iff.mpr hno

/-! ## Steps of passes alone -/

theorem goesOn_passes (h : (w.goesOn id name phase).passes id' = some pass) :
    id' = id ∧ pass = ⟨name, phase⟩ ∨ id' ≠ id ∧ w.passes id' = some pass :=
  update_some h

theorem ends_passes (h : (w.ends id).passes id' = some pass) :
    id' ≠ id ∧ w.passes id' = some pass :=
  update_none h

theorem creates_forgets (h : phase.creates = some code) : phase.forgets = false := by
  cases phase <;> first | rfl | cases h

/-- **One pass begins, goes on or ends**, in a phase that agrees with the other passes. -/
theorem Tracked.setPasses (h : Tracked platform w)
    (hnext : w.nextPass ≤ nextPass) (hrows : ∀ id' pass, passes id' = some pass →
      id' = id ∧ id < nextPass ∧ pass = ⟨name, phase⟩ ∨ id' ≠ id ∧ w.passes id' = some pass)
    (hholds : w.Holds platform name phase)
    (hcode : ∀ code, phase.code = some code → w.issued code = some name ∧
      ∀ id' pass, id' ≠ id → w.passes id' = some pass → pass.phase.code ≠ some code)
    (hcreates : ∀ code, phase.creates = some code → w.Tracks code name ∧
      (∀ code', w.issued code' = some name → code' ≤ code) ∧
        ∀ id' pass, w.passes id' = some pass → pass.phase.forgets = true → name ≠ pass.name)
    (hlocks : phase.locks = true → ∀ id' pass, id' ≠ id → w.passes id' = some pass →
      pass.name = name → pass.phase.locks = false)
    (hforgets : phase.forgets = true → ∀ id' pass, w.passes id' = some pass → pass.name = name →
      pass.phase.creates = none) : Tracked platform { w with passes, nextPass } := by
  refine ⟨h.issued_lt, h.recorded_lt, h.enrollment, fun other row hrow => ?_, h.machine, h.one,
    h.free, fun code other hact => ?_, fun code code' other hact hissued => ?_, ?_, ?_, ?_, ?_, ?_,
    ?_⟩
  · obtain ⟨hissued, hused, hmachine, hdestroyed, href⟩ := h.worker other row hrow
    exact ⟨hissued, hused, hmachine, hdestroyed, href⟩
  · rcases hact with hmachine | ⟨id', pass, hnew, rfl, hof⟩
    · exact h.tracked code other (.inl hmachine)
    · rcases hrows id' pass hnew with ⟨-, -, rfl⟩ | ⟨-, hold⟩
      · exact (hcreates code hof).1
      · exact h.tracked code pass.name (.inr ⟨id', pass, hold, rfl, hof⟩)
  · rcases hact with hmachine | ⟨id', pass, hnew, rfl, hof⟩
    · exact h.latest code code' other (.inl hmachine) hissued
    · rcases hrows id' pass hnew with ⟨-, -, rfl⟩ | ⟨-, hold⟩
      · exact (hcreates code hof).2.1 code' hissued
      · exact h.latest code code' pass.name (.inr ⟨id', pass, hold, rfl, hof⟩) hissued
  · intro id' pass hnew
    rcases hrows id' pass hnew with ⟨rfl, hid, -⟩ | ⟨-, hold⟩
    · exact hid
    · exact Nat.lt_of_lt_of_le (h.passes_lt id' pass hold) hnext
  · intro id' pass code hnew hof
    rcases hrows id' pass hnew with ⟨-, -, rfl⟩ | ⟨-, hold⟩
    · exact (hcode code hof).1
    · exact h.code id' pass code hold hof
  · intro id₁ id₂ pass₁ pass₂ code hnew₁ hnew₂ hof₁ hof₂
    rcases hrows id₁ pass₁ hnew₁ with ⟨rfl, -, rfl⟩ | ⟨hne₁, hold₁⟩
    · rcases hrows id₂ pass₂ hnew₂ with ⟨rfl, -⟩ | ⟨hne₂, hold₂⟩
      · rfl
      · exact absurd hof₂ ((hcode code hof₁).2 id₂ pass₂ hne₂ hold₂)
    · rcases hrows id₂ pass₂ hnew₂ with ⟨rfl, -, rfl⟩ | ⟨-, hold₂⟩
      · exact absurd hof₁ ((hcode code hof₂).2 id₁ pass₁ hne₁ hold₁)
      · exact h.once _ _ _ _ code hold₁ hold₂ hof₁ hof₂
  · intro id₁ id₂ pass₁ pass₂ hnew₁ hnew₂ hsame hlock₁ hlock₂
    rcases hrows id₁ pass₁ hnew₁ with ⟨rfl, -, rfl⟩ | ⟨hne₁, hold₁⟩
    · rcases hrows id₂ pass₂ hnew₂ with ⟨rfl, -⟩ | ⟨hne₂, hold₂⟩
      · rfl
      · rw [hlocks hlock₁ id₂ pass₂ hne₂ hold₂ hsame.symm] at hlock₂
        cases hlock₂
    · rcases hrows id₂ pass₂ hnew₂ with ⟨rfl, -, rfl⟩ | ⟨-, hold₂⟩
      · rw [hlocks hlock₂ id₁ pass₁ hne₁ hold₁ hsame] at hlock₁
        cases hlock₁
      · exact h.lock _ _ _ _ hold₁ hold₂ hsame hlock₁ hlock₂
  · intro id₁ id₂ pass₁ pass₂ code hnew₁ hnew₂ hof hforget
    rcases hrows id₁ pass₁ hnew₁ with ⟨-, -, rfl⟩ | ⟨-, hold₁⟩
    · rcases hrows id₂ pass₂ hnew₂ with ⟨-, -, rfl⟩ | ⟨-, hold₂⟩
      · exact absurd ((creates_forgets hof).symm.trans hforget) Bool.false_ne_true
      · exact (hcreates code hof).2.2 id₂ pass₂ hold₂ hforget
    · rcases hrows id₂ pass₂ hnew₂ with ⟨-, -, rfl⟩ | ⟨-, hold₂⟩
      · intro hsame
        rw [hforgets hforget id₁ pass₁ hold₁ hsame] at hof
        cases hof
      · exact h.apart _ _ _ _ code hold₁ hold₂ hof hforget
  · intro id' pass hnew
    rcases hrows id' pass hnew with ⟨-, -, rfl⟩ | ⟨-, hold⟩
    · exact hholds
    · exact h.holds id' pass hold

/-- The same, in a phase that has no part in any of this. -/
theorem Tracked.setResting {id : PassId}
    {name : Name} {phase : Phase} (h : Tracked platform w) (hnext : w.nextPass ≤ nextPass)
    (hrows : ∀ id' pass, passes id' = some pass →
      id' = id ∧ id < nextPass ∧ pass = ⟨name, phase⟩ ∨ id' ≠ id ∧ w.passes id' = some pass)
    (hholds : w.Holds platform name phase) (hcode : phase.code = none)
    (hlocks : phase.locks = false) (hforgets : phase.forgets = false) :
    Tracked platform { w with passes, nextPass } := by
  have hnone : ∀ code, phase.code ≠ some code := fun code hof => by
    rw [hcode] at hof
    cases hof
  exact h.setPasses hnext hrows hholds (fun code hof => absurd hof (hnone code))
    (fun code hof => absurd (creates_code hof) (hnone code))
    (fun hlock => absurd (hlocks.symm.trans hlock) Bool.false_ne_true)
    fun hforget => absurd (hforgets.symm.trans hforget) Bool.false_ne_true

theorem Tracked.ends (h : Tracked platform w) (id : PassId) : Tracked platform (w.ends id) :=
  @Tracked.setResting w platform _ w.nextPass id 0 (.listing true none none) h (Nat.le_refl _)
    (fun _ _ hnew => .inr (ends_passes hnew)) trivial rfl rfl rfl

variable {phase' : Phase}

section

variable (h : Tracked platform w) (hpass : w.passes id = some ⟨name, phase⟩)
include h hpass

theorem goesOn_rows : ∀ id' pass, (w.goesOn id name phase').passes id' = some pass →
      id' = id ∧ id < w.nextPass ∧ pass = ⟨name, phase'⟩ ∨ id' ≠ id ∧ w.passes id' = some pass :=
  fun _ _ hnew => (goesOn_passes hnew).imp_left fun hself =>
    ⟨hself.1, h.passes_lt id _ hpass, hself.2⟩

/-- A pass goes on to a phase in which it takes no code up. -/
theorem Tracked.goesOn (hholds : w.Holds platform name phase')
    (hcode : ∀ code, phase'.code = some code → phase.code = some code)
    (hcreates : ∀ code, phase'.creates = some code → phase.creates = some code)
    (hlocks : phase'.locks = true → ∀ id' pass, w.passes id' = some pass → pass.name = name →
      pass.phase.locks = true → id' = id)
    (hforgets : phase'.forgets = true → ∀ id' pass, w.passes id' = some pass → pass.name = name →
      pass.phase.creates = none) : Tracked platform (w.goesOn id name phase') := by
  refine h.setPasses (Nat.le_refl _) (goesOn_rows h hpass) hholds (fun code hof => ?_)
    (fun code hof => ?_) (fun hlock id' pass hne hold hname => ?_) hforgets
  · refine ⟨h.code id _ code hpass (hcode code hof), fun id' pass hne hold hof' => ?_⟩
    exact hne (h.once id' id _ _ code hold hpass hof' (hcode code hof))
  · have hact : w.Active code name := .inr ⟨id, _, hpass, rfl, hcreates code hof⟩
    exact ⟨h.tracked code name hact, fun code' => h.latest code code' name hact,
      fun id' pass hold => h.apart id id' _ pass code hpass hold (hcreates code hof)⟩
  · exact Bool.eq_false_iff.mpr fun hlock' => hne (hlocks hlock id' pass hold hname hlock')

/-- A pass goes on to a phase that has no part in any of this. -/
theorem Tracked.rests (hholds : w.Holds platform name phase') (hcode : phase'.code = none)
    (hlocks : phase'.locks = false) (hforgets : phase'.forgets = false) :
    Tracked platform (w.goesOn id name phase') :=
  h.setResting (Nat.le_refl _) (goesOn_rows h hpass) hholds hcode hlocks hforgets

end

theorem Tracked.begin (h : Tracked platform w) (name : Name) (wanted : Bool) :
    Tracked platform ({ w with nextPass := w.nextPass + 1 }.goesOn w.nextPass name
      (.listing wanted none none)) :=
  @Tracked.setResting w platform _ _ w.nextPass name (.listing wanted none none) h
    (Nat.le_succ _) (fun _ _ hnew => (update_some hnew).imp_left fun hself =>
    ⟨hself.1, Nat.lt_succ_self _, hself.2⟩) trivial rfl rfl rfl

/-! ## Steps of the tables -/

section

variable (h : Tracked platform w)
include h

/-- Rows of workers change, but for what they say of a machine. -/
theorem Tracked.setWorkers {workers : Name → Option Worker}
    (hrows : ∀ name row', workers name = some row' → ∃ row, w.workers name = some row ∧
      row'.code = row.code ∧ (row.revoked = true → row'.revoked = true) ∧
        (row.destroyed = true → row'.destroyed = true) ∧
          (row'.destroyed = true → row'.revoked = true) ∧
            (row'.ref = row.ref ∨ row'.ref = some (platform.ref row.code)))
    (hstays : ∀ name row, w.workers name = some row → row.destroyed = false →
      (∃ row', workers name = some row' ∧ row'.code = row.code ∧ row'.destroyed = false) ∨
        ¬w.Active row.code name) :
    Tracked platform { w with workers } := by
  refine { h with worker := ?_, free := ?_, tracked := ?_, holds := ?_ }
  · intro name row' hrow'
    obtain ⟨row, hrow, hcode, -, -, hdestroyed, href⟩ := hrows name row' hrow'
    obtain ⟨hissued, hused, hmachine, -, href₀⟩ := h.worker name row hrow
    refine ⟨hcode ▸ hissued, hcode ▸ hused, hcode ▸ hmachine, hdestroyed, ?_⟩
    rw [hcode]
    rcases href with hsame | hset
    · exact hsame ▸ href₀
    · exact .inl hset
  · intro code name row' hunused hrow'
    obtain ⟨row, hrow, -, -, hdestroyed, -⟩ := hrows name row' hrow'
    exact hdestroyed (h.free code name row hunused hrow)
  · intro code name hact
    rcases h.tracked code name hact with hunused | ⟨row, hrow, rfl, hdestroyed⟩
    · exact .inl hunused
    · exact .inr ((hstays name row hrow hdestroyed).resolve_right fun hnot => hnot hact)
  · intro id pass hpass
    have hold := h.holds id pass hpass
    have hvacant : w.Vacant pass.name → World.Vacant { w with workers } pass.name := by
      intro hvacant row' hrow'
      obtain ⟨row, hrow, -, hrevoked, -⟩ := hrows pass.name row' hrow'
      exact hrevoked (hvacant row hrow)
    obtain ⟨name, phase⟩ := pass
    cases phase with
    | checking => exact hvacant hold
    | inserting => exact ⟨hvacant hold.1, hold.2⟩
    | _ => exact hold

/-- Rows of codes change, but for what they say of a machine; or a code is withdrawn. -/
theorem Tracked.setEnrollments {enrollments : Code → Option Enrollment}
    (hrows : ∀ code row', enrollments code = some row' → ∃ row, w.enrollments code = some row ∧
      row'.name = row.name ∧ row'.used = row.used ∧
        (row'.ref = row.ref ∨ row'.ref = some (platform.ref code)))
    (hstays : ∀ code row, w.enrollments code = some row →
      (∃ row', enrollments code = some row' ∧ row'.name = row.name ∧ row'.used = row.used) ∨
        row.used = false ∧ ¬w.Active code row.name) :
    Tracked platform { w with enrollments } := by
  have hunused : ∀ code name, World.Unused { w with enrollments } code name →
      w.Unused code name := by
    rintro code name ⟨row', hrow', rfl, hused⟩
    obtain ⟨row, hrow, hname, hsame, -⟩ := hrows code row' hrow'
    exact ⟨row, hrow, hname.symm, hsame ▸ hused⟩
  refine { h with
      enrollment := ?_, worker := ?_, one := ?_, free := ?_, tracked := ?_, holds := ?_ }
  · intro code row' hrow'
    obtain ⟨row, hrow, hname, -, href⟩ := hrows code row' hrow'
    obtain ⟨hissued, href₀⟩ := h.enrollment code row hrow
    refine ⟨hname ▸ hissued, ?_⟩
    rcases href with hsame | hset
    · exact hsame ▸ href₀
    · exact .inl hset
  · intro name row hrow
    obtain ⟨hissued, ⟨enrollment, henrollment, hused⟩, hmachine, hdestroyed, href⟩ :=
      h.worker name row hrow
    refine ⟨hissued, ?_, hmachine, hdestroyed, href⟩
    rcases hstays row.code enrollment henrollment with ⟨row', hrow', -, hsame⟩ | ⟨hnot, -⟩
    · exact ⟨row', hrow', hsame.trans hused⟩
    · rw [hused] at hnot
      cases hnot
  · exact fun code code' name hnew hnew' =>
      h.one code code' name (hunused code name hnew) (hunused code' name hnew')
  · exact fun code name row hnew => h.free code name row (hunused code name hnew)
  · intro code name hact
    rcases h.tracked code name hact with ⟨row, hrow, rfl, hused⟩ | hworker
    · rcases hstays code row hrow with ⟨row', hrow', hname, hsame⟩ | ⟨-, hnot⟩
      · exact .inl ⟨row', hrow', hname, hsame.trans hused⟩
      · exact absurd hact hnot
    · exact .inr hworker
  · intro id pass hpass
    have hold := h.holds id pass hpass
    obtain ⟨name, phase⟩ := pass
    cases phase with
    | inserting => exact ⟨hold.1, fun code hnew => hold.2 code (hunused code name hnew)⟩
    | recordingWorker code =>
      intro row' hrow'
      obtain ⟨row, hrow, -, -, href⟩ := hrows code row' hrow'
      rcases href with hsame | hset
      · exact hsame.trans (hold row hrow)
      · exact hset
    | _ => exact hold

/-- The platform's machines change: one is created or refused, or some are gone. -/
theorem Tracked.setMachines {machines : Code → Option Machine}
    (hrows : ∀ code machine', machines code = some machine' → ∃ machine,
      w.machines code = some machine ∧ machine'.name = machine.name ∧
        (machine.standing = .gone → machine'.standing = .gone))
    (hstays : ∀ code machine, w.machines code = some machine → machine.standing ≠ .asked →
      ∃ machine', machines code = some machine' ∧ machine'.standing ≠ .asked) :
    Tracked platform { w with machines } := by
  have hactive : ∀ code name, World.Active { w with machines } code name → w.Active code name := by
    rintro code name (⟨machine', hmachine', rfl, hstanding⟩ | hpass)
    · obtain ⟨machine, hmachine, hname, hgone⟩ := hrows code machine' hmachine'
      exact .inl ⟨machine, hmachine, hname.symm, fun hold => hstanding (hgone hold)⟩
    · exact .inr hpass
  refine { h with
      worker := ?_, machine := ?_,
      tracked := fun code name hact => h.tracked code name (hactive code name hact),
      latest := fun code code' name hact => h.latest code code' name (hactive code name hact),
      holds := ?_ }
  · intro name row hrow
    obtain ⟨hissued, hused, ⟨machine, hmachine, hstanding⟩, hdestroyed, href⟩ :=
      h.worker name row hrow
    exact ⟨hissued, hused, hstays row.code machine hmachine hstanding, hdestroyed, href⟩
  · intro code machine' hmachine'
    obtain ⟨machine, hmachine, hname, -⟩ := hrows code machine' hmachine'
    exact hname ▸ h.machine code machine hmachine
  · intro id pass hpass
    have hold := h.holds id pass hpass
    obtain ⟨name, phase⟩ := pass
    have hgone : (∀ code machine, w.machines code = some machine → machine.name = name →
        machine.standing = .gone) → ∀ code machine, machines code = some machine →
          machine.name = name → machine.standing = .gone := by
      intro hall code machine' hmachine' hname'
      obtain ⟨machine, hmachine, hname, hgone⟩ := hrows code machine' hmachine'
      exact hgone (hall code machine hmachine (hname ▸ hname'))
    have hnone : ∀ code, w.machines code = none → machines code = none := by
      intro code hold
      cases hnew : machines code with
      | none => rfl
      | some machine' =>
        obtain ⟨machine, hmachine, -⟩ := hrows code machine' hnew
        rw [hold] at hmachine
        cases hmachine
    cases phase with
    | provisioning code | refused code => exact hnone code hold
    | forgetting _ => exact hgone hold
    | canceling _ => exact hgone hold
    | _ => exact hold

/-- The reference is recorded where the machine is listed. -/
theorem Tracked.setRecorded (hlt : code < w.nextCode)
    (henrollment : ∀ row, w.enrollments code = some row → row.ref = some (platform.ref code))
    (hworker : ∀ name row, w.workers name = some row → row.code = code →
      row.ref = some (platform.ref code)) : Tracked platform (w.setRecorded code) := by
  refine { h with recorded_lt := ?_, enrollment := ?_, worker := ?_ }
  · intro other hrecorded
    by_cases hsame : other = code
    · exact hsame ▸ hlt
    · have hold : Function.update w.recorded code true other = true := hrecorded
      rw [Function.update_of_ne hsame] at hold
      exact h.recorded_lt other hold
  · intro other row hrow
    obtain ⟨hissued, href⟩ := h.enrollment other row hrow
    refine ⟨hissued, ?_⟩
    by_cases hsame : other = code
    · subst hsame
      exact .inl (henrollment row hrow)
    · exact href.imp id fun hnone => ⟨hnone.1, (Function.update_of_ne hsame ..).trans hnone.2⟩
  · intro name row hrow
    obtain ⟨hissued, hused, hmachine, hdestroyed, href⟩ := h.worker name row hrow
    refine ⟨hissued, hused, hmachine, hdestroyed, ?_⟩
    by_cases hsame : row.code = code
    · exact .inl ((hworker name row hrow hsame).trans (hsame ▸ rfl))
    · exact href.imp id fun hnone => ⟨hnone.1, (Function.update_of_ne hsame ..).trans hnone.2⟩

end

/-! ## Operations -/

section

variable (h : Tracked platform w)
include h

theorem Tracked.revoke (name : Name) : Tracked platform (w.revoke name) := by
  refine h.setWorkers ?_ ?_
  · intro other row' hrow'
    obtain ⟨row, hrow, rfl⟩ := map_eq_some_iff.mp hrow'
    have hdestroyed := (h.worker other row hrow).destroyed
    refine ⟨row, hrow, ?_⟩
    split_ifs
    · exact ⟨rfl, fun _ => rfl, fun hold => hold, fun _ => rfl, .inl rfl⟩
    · exact ⟨rfl, fun hold => hold, fun hold => hold, hdestroyed, .inl rfl⟩
  · intro other row hrow hdestroyed
    refine .inl ⟨_, map_eq_some_iff.mpr ⟨row, hrow, rfl⟩, ?_⟩
    split_ifs
    · exact ⟨rfl, hdestroyed⟩
    · exact ⟨rfl, hdestroyed⟩

theorem Tracked.expireEnrollments (name : Name) : Tracked platform (w.expireEnrollments name) := by
  refine h.setEnrollments ?_ ?_
  · intro code row' hrow'
    obtain ⟨row, hrow, rfl⟩ := map_eq_some_iff.mp hrow'
    refine ⟨row, hrow, ?_⟩
    split_ifs
    · exact ⟨rfl, rfl, .inl rfl⟩
    · exact ⟨rfl, rfl, .inl rfl⟩
  · intro code row hrow
    refine .inl ⟨_, map_eq_some_iff.mpr ⟨row, hrow, rfl⟩, ?_⟩
    split_ifs
    · exact ⟨rfl, rfl⟩
    · exact ⟨rfl, rfl⟩

/-- The codes of a name are withdrawn when no machine was asked for with them. -/
theorem Tracked.cancelEnrollments (hidle : ∀ code, w.Unused code name → ¬w.Active code name) :
    Tracked platform (w.cancelEnrollments name) := by
  refine h.setEnrollments ?_ ?_
  · intro code row' hrow'
    exact ⟨row', (filter_eq_some_iff.mp hrow').1, rfl, rfl, .inl rfl⟩
  · intro code row hrow
    by_cases hkept : (row.name ≠ name || row.used) = true
    · exact .inl ⟨row, filter_eq_some_iff.mpr ⟨hrow, hkept⟩, rfl, rfl⟩
    · rw [Bool.or_eq_true, not_or] at hkept
      have hname : row.name = name := Classical.not_not.mp fun hne => hkept.1 (decide_eq_true hne)
      have hused : row.used = false := Bool.eq_false_iff.mpr hkept.2
      exact .inr ⟨hused, hname ▸ hidle code ⟨row, hrow, hname, hused⟩⟩

theorem Tracked.forget (hidle : ∀ code, ¬w.Active code name) :
    Tracked platform (w.forget name) := by
  refine h.setWorkers ?_ ?_
  · intro other row' hrow'
    obtain ⟨row, hrow, rfl⟩ := map_eq_some_iff.mp hrow'
    have hdestroyed := (h.worker other row hrow).destroyed
    refine ⟨row, hrow, ?_⟩
    split_ifs with hforgets
    · exact ⟨rfl, fun hold => hold, fun _ => rfl, fun _ => hforgets.2.1, .inl rfl⟩
    · exact ⟨rfl, fun hold => hold, fun hold => hold, hdestroyed, .inl rfl⟩
  · intro other row hrow hdestroyed
    by_cases hsame : other = name
    · exact .inr (hsame ▸ hidle row.code)
    · refine .inl ⟨_, map_eq_some_iff.mpr ⟨row, hrow, rfl⟩, ?_⟩
      rw [if_neg fun hforgets => hsame hforgets.1]
      exact ⟨rfl, hdestroyed⟩

theorem Tracked.destroy (name : Name) (ref : Option Ref) :
    Tracked platform (w.destroy platform name ref) := by
  refine h.setMachines ?_ ?_
  · intro code machine' hmachine'
    obtain ⟨machine, hmachine, rfl⟩ := map_eq_some_iff.mp hmachine'
    refine ⟨machine, hmachine, ?_⟩
    split_ifs
    · exact ⟨rfl, fun _ => rfl⟩
    · exact ⟨rfl, fun hold => hold⟩
  · intro code machine hmachine hstanding
    refine ⟨_, map_eq_some_iff.mpr ⟨machine, hmachine, rfl⟩, ?_⟩
    split_ifs
    · exact fun hasked => by cases hasked
    · exact hstanding

end

variable {machine : Machine}

section

variable (h : Tracked platform w) {row : Enrollment}
include h

/-- What was asked for is created, or what is there is gone. -/
theorem Tracked.setMachine (hmachine : w.machines code = some machine)
    (hstanding : machine.standing ≠ .gone) {standing : Standing} (hnew : standing ≠ .asked) :
    Tracked platform (w.setMachine code (some { machine with standing })) := by
  refine h.setMachines ?_ ?_
  · intro other machine' hmachine'
    rcases update_some hmachine' with ⟨rfl, rfl⟩ | ⟨-, hold⟩
    · exact ⟨machine, hmachine, rfl, fun hgone => absurd hgone hstanding⟩
    · exact ⟨machine', hold, rfl, fun hgone => hgone⟩
  · intro other old hold hasked
    by_cases hsame : other = code
    · subst hsame
      exact ⟨_, Function.update_self .., hnew⟩
    · exact ⟨old, (Function.update_of_ne hsame ..).trans hold, hasked⟩

/-- A pass asks the platform for a machine. -/
theorem Tracked.ask (hpass : w.passes id = some ⟨name, .awaiting code⟩)
    (hnone : w.machines code = none) :
    Tracked platform (w.setMachine code (some ⟨name, .asked⟩)) := by
  have hissued : w.issued code = some name := h.code id _ code hpass rfl
  have hactive : ∀ code' other, (w.setMachine code (some ⟨name, .asked⟩)).Active code' other →
      w.Active code' other := by
    rintro code' other (⟨machine, hmachine, hname, hstanding⟩ | hcreates)
    · rcases update_some hmachine with ⟨rfl, rfl⟩ | ⟨-, hold⟩
      · exact .inr ⟨id, _, hpass, hname, rfl⟩
      · exact .inl ⟨machine, hold, hname, hstanding⟩
    · exact .inr hcreates
  refine { h with
      worker := ?_, machine := ?_,
      tracked := fun code' other hact => h.tracked code' other (hactive code' other hact),
      latest := fun code₁ code₂ other hact => h.latest code₁ code₂ other (hactive code₁ other hact),
      holds := ?_ }
  · intro other row hrow
    obtain ⟨hof, hused, ⟨machine, hmachine, hstanding⟩, hdestroyed, href⟩ := h.worker other row hrow
    refine ⟨hof, hused, ⟨machine, (Function.update_of_ne ?_ ..).trans hmachine, hstanding⟩,
      hdestroyed, href⟩
    rintro rfl
    rw [hnone] at hmachine
    cases hmachine
  · intro code' machine hmachine
    rcases update_some hmachine with ⟨rfl, rfl⟩ | ⟨-, hold⟩
    · exact hissued
    · exact h.machine code' machine hold
  · intro id' pass' hpass'
    have hold := h.holds id' pass' hpass'
    obtain ⟨other, phase⟩ := pass'
    -- Another pass that works with the code would be this one.
    have hother : ∀ code', phase.code = some code' → id' ≠ id → w.machines code' = none →
        (w.setMachine code (some ⟨name, .asked⟩)).machines code' = none := by
      intro code' hof hne hnone'
      refine (Function.update_of_ne ?_ ..).trans hnone'
      rintro rfl
      exact hne (h.once id' id _ _ code' hpass' hpass hof rfl)
    have hgone : phase.forgets = true → (∀ code' machine, w.machines code' = some machine →
        machine.name = other → machine.standing = .gone) → ∀ code' machine,
          (w.setMachine code (some ⟨name, .asked⟩)).machines code' = some machine →
            machine.name = other → machine.standing = .gone := by
      intro hforgets hall code' machine hmachine hname
      rcases update_some hmachine with ⟨rfl, rfl⟩ | ⟨-, hold⟩
      · exact absurd hname (h.apart id id' _ _ code' hpass hpass' rfl hforgets)
      · exact hall code' machine hold hname
    have hne : ∀ code', phase = .provisioning code' ∨ phase = .refused code' → id' ≠ id := by
      rintro code' hphase rfl
      have heq := congrArg Pass.phase (some.inj (hpass.symm.trans hpass'))
      rcases hphase with rfl | rfl
      · cases heq
      · cases heq
    cases phase with
    | provisioning code' => exact hother code' rfl (hne code' (.inl rfl)) hold
    | refused code' => exact hother code' rfl (hne code' (.inr rfl)) hold
    | forgetting _ | canceling _ => exact hgone rfl hold
    | _ => exact hold

/-- The platform refuses what it was asked for. -/
theorem Tracked.refuse (hmachine : w.machines code = some machine)
    (hasked : machine.standing = .asked) : Tracked platform (w.setMachine code none) := by
  refine h.setMachines (fun _ machine' hnew => ⟨machine', (update_none hnew).2, rfl, id⟩) ?_
  intro other old hold hstanding
  refine ⟨old, (Function.update_of_ne ?_ ..).trans hold, hstanding⟩
  rintro rfl
  cases hmachine.symm.trans hold
  exact hstanding hasked

theorem Tracked.recordRef (code : Code) :
    Tracked platform (w.recordRef code (platform.ref code)) := by
  refine h.setEnrollments ?_ ?_
  · intro other row' hrow'
    by_cases hsame : other = code
    · subst hsame
      rw [Function.update_self] at hrow'
      obtain ⟨row, hrow, rfl⟩ := map_eq_some_iff.mp hrow'
      exact ⟨row, hrow, rfl, rfl, .inr rfl⟩
    · rw [Function.update_of_ne hsame] at hrow'
      exact ⟨row', hrow', rfl, rfl, .inl rfl⟩
  · intro other row hrow
    by_cases hsame : other = code
    · subst hsame
      rw [Function.update_self, hrow]
      exact .inl ⟨_, rfl, rfl, rfl⟩
    · rw [Function.update_of_ne hsame]
      exact .inl ⟨row, hrow, rfl, rfl⟩

omit h in
theorem recordRef_row {ref : Ref}
    (h : (w.recordRef code ref).enrollments code = some row) : row.ref = some ref := by
  have hupdate : Function.update w.enrollments code
      ((w.enrollments code).map fun row => { row with ref := some ref }) code = some row := h
  rw [Function.update_self] at hupdate
  obtain ⟨old, -, rfl⟩ := map_eq_some_iff.mp hupdate
  rfl

/-- The reference is recorded with the worker of the machine itself. -/
theorem Tracked.recordWorkerRef (hown : ∀ row, w.workers name = some row →
      row.code ≠ code → row.revoked = true ∨ row.ref ≠ none) :
    Tracked platform (w.recordWorkerRef name (platform.ref code)) := by
  refine h.setWorkers ?_ ?_
  · intro other row' hrow'
    by_cases hsame : other = name
    · subst hsame
      rw [Function.update_self] at hrow'
      obtain ⟨row, hrow, rfl⟩ := map_eq_some_iff.mp hrow'
      have hdestroyed := (h.worker other row hrow).destroyed
      refine ⟨row, hrow, ?_⟩
      split_ifs with hset
      · refine ⟨rfl, fun hold => hold, fun hold => hold, hdestroyed, .inr ?_⟩
        have hcode : row.code = code := Classical.not_not.mp fun hne =>
          (hown row hrow hne).elim (fun hrevoked => by simp [hrevoked] at hset) fun href =>
            href hset.2
        rw [hcode]
      · exact ⟨rfl, fun hold => hold, fun hold => hold, hdestroyed, .inl rfl⟩
    · rw [Function.update_of_ne hsame] at hrow'
      exact ⟨row', hrow', rfl, fun hold => hold, fun hold => hold,
        (h.worker other row' hrow').destroyed, .inl rfl⟩
  · intro other row hrow hdestroyed
    by_cases hsame : other = name
    · subst hsame
      rw [Function.update_self, hrow]
      refine .inl ⟨_, rfl, ?_⟩
      dsimp only
      split_ifs
      · exact ⟨rfl, hdestroyed⟩
      · exact ⟨rfl, hdestroyed⟩
    · rw [Function.update_of_ne hsame]
      exact .inl ⟨row, hrow, rfl, hdestroyed⟩

/-- A machine enrolls with its code. -/
theorem Tracked.enroll (hrow : w.enrollments code = some row) (hused : row.used = false)
    (hmachine : w.machines code = some machine) (hthere : machine.standing = .there)
    (hchecks : ∀ id pass, w.passes id = some pass → pass.name = row.name →
      pass.phase ≠ .checking) : Tracked platform (w.enroll code row) := by
  obtain ⟨hissued, href⟩ := h.enrollment code row hrow
  have hself : w.Unused code row.name := ⟨row, hrow, rfl, hused⟩
  have hunused : ∀ code' name, (w.enroll code row).Unused code' name →
      code' ≠ code ∧ w.Unused code' name := by
    rintro code' name ⟨row', hrow', hname, hused'⟩
    rcases update_some hrow' with ⟨-, rfl⟩ | ⟨hne, hold⟩
    · cases hused'
    · exact ⟨hne, row', hold, hname, hused'⟩
  refine { h with
      enrollment := ?_, worker := ?_, one := ?_, free := ?_, tracked := ?_, holds := ?_ }
  · intro code' row' hrow'
    rcases update_some hrow' with ⟨rfl, rfl⟩ | ⟨-, hold⟩
    · exact ⟨hissued, href⟩
    · exact h.enrollment code' row' hold
  · intro name worker hworker
    rcases update_some hworker with ⟨rfl, rfl⟩ | ⟨-, hold⟩
    · have hstanding : machine.standing ≠ .asked := by
        rw [hthere]
        nofun
      exact ⟨hissued, ⟨_, Function.update_self .., rfl⟩, ⟨machine, hmachine, hstanding⟩,
        fun hdestroyed => absurd hdestroyed Bool.false_ne_true, href⟩
    · obtain ⟨hof, ⟨enrollment, henrollment, hwas⟩, hplatform, hdestroyed, href⟩ :=
        h.worker name worker hold
      refine ⟨hof, ?_, hplatform, hdestroyed, href⟩
      by_cases hsame : worker.code = code
      · rw [hsame]
        exact ⟨_, Function.update_self .., rfl⟩
      · exact ⟨enrollment, (Function.update_of_ne hsame ..).trans henrollment, hwas⟩
  · exact fun code₁ code₂ name hnew₁ hnew₂ =>
      h.one code₁ code₂ name (hunused code₁ name hnew₁).2 (hunused code₂ name hnew₂).2
  · intro code' name worker hnew hworker
    obtain ⟨hne, hold⟩ := hunused code' name hnew
    rcases update_some hworker with ⟨rfl, -⟩ | ⟨-, hwas⟩
    · exact absurd (h.one code' code row.name hold hself) hne
    · exact h.free code' name worker hold hwas
  · intro code' name hact
    by_cases hname : name = row.name
    · subst hname
      have hcode : code' = code := by
        rcases h.tracked code' row.name hact with hold | ⟨worker, hworker, -, hdestroyed⟩
        · exact h.one code' code row.name hold hself
        · rw [h.free code row.name worker hself hworker] at hdestroyed
          cases hdestroyed
      exact .inr ⟨_, Function.update_self .., hcode.symm, rfl⟩
    · rcases h.tracked code' name hact with ⟨old, hold, hof, hwas⟩ | ⟨worker, hworker, hof⟩
      · refine .inl ⟨old, (Function.update_of_ne ?_ ..).trans hold, hof, hwas⟩
        rintro rfl
        rw [hrow, some.injEq] at hold
        exact hname (hof.symm.trans (hold ▸ rfl))
      · exact .inr ⟨worker, (Function.update_of_ne hname ..).trans hworker, hof⟩
  · intro id pass hpass
    have hold := h.holds id pass hpass
    have hno := hchecks id pass hpass
    obtain ⟨name, phase⟩ := pass
    cases phase with
    | checking =>
      intro worker hworker
      rcases update_some hworker with ⟨hname, -⟩ | ⟨-, hwas⟩
      · exact absurd rfl (hno hname)
      · exact hold worker hwas
    | inserting =>
      refine ⟨fun worker hworker => ?_, fun code' hnew => hold.2 code'
        (hunused code' name hnew).2⟩
      rcases update_some hworker with ⟨hname, -⟩ | ⟨-, hwas⟩
      · exact absurd (hname ▸ hself) (hold.2 code)
      · exact hold.1 worker hwas
    | recordingWorker code' =>
      intro row' hrow'
      rcases update_some hrow' with ⟨rfl, rfl⟩ | ⟨-, hwas⟩
      · exact hold row hrow
      · exact hold row' hwas
    | _ => exact hold

/-- A code is issued for a name that no machine has. -/
theorem Tracked.insertCode (expiresAt : Nat) (hunused : ∀ code, ¬w.Unused code name)
    (hworkers : ∀ row, w.workers name = some row → row.destroyed = true)
    (hlocks : ∀ id pass, w.passes id = some pass → pass.name = name → pass.phase.locks = false) :
    Tracked platform (w.insert name expiresAt) := by
  have hidle : ∀ code, ¬w.Active code name := by
    intro code hact
    rcases h.tracked code name hact with hold | ⟨row, hrow, -, hdestroyed⟩
    · exact hunused code hold
    · rw [hworkers row hrow] at hdestroyed
      cases hdestroyed
  have hlt : ∀ code row, w.enrollments code = some row → code ≠ w.nextCode :=
    fun code row hrow => Nat.ne_of_lt (h.issued_lt code _ (h.enrollment code row hrow).1)
  have hissues : ∀ {code other}, w.issued code = some other →
      (w.insert name expiresAt).issued code = some other :=
    fun hold => (Function.update_of_ne (Nat.ne_of_lt (h.issued_lt _ _ hold)) ..).trans hold
  have hrecorded : w.recorded w.nextCode = false :=
    Bool.eq_false_iff.mpr fun hold => Nat.lt_irrefl _ (h.recorded_lt _ hold)
  have hrows : ∀ code other, (w.insert name expiresAt).Unused code other →
      code = w.nextCode ∧ other = name ∨ other ≠ name ∧ w.Unused code other := by
    rintro code other ⟨row, hrow, hname, hused⟩
    rcases update_some hrow with ⟨rfl, rfl⟩ | ⟨-, hwas⟩
    · exact .inl ⟨rfl, hname.symm⟩
    · have hold : w.Unused code other := ⟨row, hwas, hname, hused⟩
      exact .inr ⟨fun hsame => hunused code (hsame ▸ hold), hold⟩
  refine ⟨?_, fun code hof => Nat.lt_succ_of_lt (h.recorded_lt code hof), ?_, ?_,
    fun code machine hmachine => hissues (h.machine code machine hmachine), ?_, ?_, ?_, ?_,
    h.passes_lt, fun id pass code hpass hof => hissues (h.code id pass code hpass hof), h.once,
    h.lock, h.apart, ?_⟩
  · intro code other hof
    rcases update_some hof with ⟨rfl, -⟩ | ⟨-, hold⟩
    · exact Nat.lt_succ_self _
    · exact Nat.lt_succ_of_lt (h.issued_lt code other hold)
  · intro code row hrow
    rcases update_some hrow with ⟨rfl, rfl⟩ | ⟨-, hold⟩
    · exact ⟨Function.update_self .., .inr ⟨rfl, hrecorded⟩⟩
    · obtain ⟨hof, href⟩ := h.enrollment code row hold
      exact ⟨hissues hof, href⟩
  · intro other row hrow
    obtain ⟨hof, ⟨enrollment, henrollment, hused⟩, hmachine, hdestroyed, href⟩ :=
      h.worker other row hrow
    exact ⟨hissues hof, ⟨enrollment, (Function.update_of_ne (hlt _ _ henrollment) ..).trans
      henrollment, hused⟩, hmachine, hdestroyed, href⟩
  · intro code₁ code₂ other hnew₁ hnew₂
    rcases hrows code₁ other hnew₁ with ⟨rfl, hname⟩ | ⟨hne, hold₁⟩
    · rcases hrows code₂ other hnew₂ with ⟨rfl, -⟩ | ⟨hne, -⟩
      · rfl
      · exact absurd hname hne
    · rcases hrows code₂ other hnew₂ with ⟨-, hname⟩ | ⟨-, hold₂⟩
      · exact absurd hname hne
      · exact h.one code₁ code₂ other hold₁ hold₂
  · intro code other row hunused' hrow
    rcases hrows code other hunused' with ⟨-, rfl⟩ | ⟨-, hold⟩
    · exact hworkers row hrow
    · exact h.free code other row hold hrow
  · intro code other hact
    rcases h.tracked code other hact with ⟨row, hrow, hof, hused⟩ | hworker
    · exact .inl ⟨row, (Function.update_of_ne (hlt code row hrow) ..).trans hrow, hof, hused⟩
    · exact .inr hworker
  · intro code code' other hact hof
    rcases update_some hof with ⟨-, rfl⟩ | ⟨-, hwas⟩
    · exact absurd hact (hidle code)
    · exact h.latest code code' other hact hwas
  · intro id pass hpass
    have hold := h.holds id pass hpass
    have hlock := hlocks id pass hpass
    obtain ⟨other, phase⟩ := pass
    cases phase with
    | inserting =>
      refine ⟨hold.1, fun code hnew' => ?_⟩
      rcases hrows code other hnew' with ⟨-, hname⟩ | ⟨-, hunused'⟩
      · exact absurd (hlock hname) Bool.false_ne_true.symm
      · exact hold.2 code hunused'
    | recordingWorker code =>
      intro row hrow
      rcases update_some hrow with ⟨rfl, -⟩ | ⟨-, hrow'⟩
      · exact absurd (h.issued_lt _ _ (h.code id _ _ hpass rfl)) (Nat.lt_irrefl _)
      · exact hold row hrow'
    | _ => exact hold

/-- A pass issues a code for a name that no machine has, and works with it. -/
theorem Tracked.insert (expiresAt : Nat) (hid : id < w.nextPass)
    (hunused : ∀ code, ¬w.Unused code name)
    (hworkers : ∀ row, w.workers name = some row → row.destroyed = true)
    (hforgets : ∀ id pass, w.passes id = some pass → pass.name = name → pass.phase.forgets = false)
    (hlocks : ∀ id pass, w.passes id = some pass → pass.name = name → pass.phase.locks = false) :
    Tracked platform ((w.insert name expiresAt).goesOn id name (.provisioning w.nextCode)) := by
  have hissued : (w.insert name expiresAt).issued w.nextCode = some name := Function.update_self ..
  refine (h.insertCode expiresAt hunused hworkers hlocks).setPasses (Nat.le_refl _)
    (fun _ _ hnew => (update_some hnew).imp_left fun hself => ⟨hself.1, hid, hself.2⟩) ?_
    (fun code hof => ?_) (fun code hof => ?_) nofun nofun
  · refine eq_none_iff_forall_ne_some.mpr fun machine hmachine => ?_
    exact Nat.lt_irrefl _ (h.issued_lt _ _ (h.machine _ machine hmachine))
  · cases hof
    exact ⟨hissued, fun id' pass _ hpass hof' =>
      Nat.lt_irrefl _ (h.issued_lt _ _ (h.code id' pass _ hpass hof'))⟩
  · cases hof
    refine ⟨.inl ⟨_, Function.update_self .., rfl, rfl⟩, fun code' hof' => ?_,
      fun id' pass hpass hforget hname => ?_⟩
    · rcases update_some hof' with ⟨rfl, -⟩ | ⟨-, hwas⟩
      · exact Nat.le_refl _
      · exact Nat.le_of_lt (h.issued_lt code' name hwas)
    · rw [hforgets id' pass hpass hname.symm] at hforget
      cases hforget

end

end Catamorphic.Workers.Machines
