import Catamorphic.Execution.Enrollment
import Catamorphic.Execution.RunGrowth

/-!
# One live run to a key

The unique index keeps a second live run of a key out, and the row that a restart has locked keeps
its status until the restart's end. So what a restart cancels is the run that it observed, in the
commit that has the new run, and every other end of a trigger leaves the runs as they are.
-/

namespace Catamorphic.Execution.Enrollment

open Coordinator Runs List Option Bool

variable {values : Values} {s s' : Service} {t : Nat} {trigger trigger' : Trigger} {key : Key}
  {r r' : RunId}

/-! ## Rows with keys -/

/-- The run is live, and has the key. -/
def Service.LiveKey (s : Service) (key : Key) (r : RunId) : Prop :=
  s.keys r = some key ∧ s.live r = true

def Service.Canceled (s : Service) (r : RunId) : Prop :=
  ∃ run, s.world.runs r = some run ∧ run.status = .canceled

/-- No two live runs have one key. -/
def Service.AtMostOne (s : Service) : Prop :=
  ∀ key r r', s.LiveKey key r → s.LiveKey key r' → r = r'

structure Rows (s : Service) : Prop where
  bounded : s.world.Bounded
  root : ∀ r key, s.keys r = some key → ∃ run, s.world.runs r = some run ∧ run.parent = none
  unique : s.AtMostOne

theorem live_iff : s.live r = true ↔
    ∃ run, s.world.runs r = some run ∧ run.status.isTerminal = false := by
  rw [Service.live, Option.any_eq_true]
  simp only [not_eq_true']

theorem Rows.lt (h : Rows s) (hlive : s.live r = true) : r < s.world.nextRun := by
  obtain ⟨run, hrun, -⟩ := live_iff.mp hlive
  exact h.bounded r run hrun

theorem findActiveByKey_some (h : s.findActiveByKey key = some r) : s.LiveKey key r := by
  have hfound := List.find?_some h
  rw [and_eq_true, decide_eq_true_eq] at hfound
  exact hfound

theorem Rows.findActiveByKey_none (h : Rows s) (hnone : s.findActiveByKey key = none) :
    ¬s.LiveKey key r := by
  rintro ⟨hkey, hlive⟩
  have hnot := List.find?_eq_none.mp hnone r (mem_range.mpr (h.lt hlive))
  rw [and_eq_true, decide_eq_true_eq] at hnot
  exact hnot ⟨hkey, hlive⟩

variable {replacing : Option RunId} {action : Action} {α : Type}

theorem Rows.occupied (h : Rows s) :
    s.occupied key replacing = true ↔ ∃ r, s.LiveKey key r ∧ replacing ≠ some r := by
  rw [Service.occupied, List.any_eq_true]
  simp only [and_eq_true, decide_eq_true_eq, mem_range]
  constructor
  · rintro ⟨r, -, hkey, hne⟩
    exact ⟨r, hkey, hne⟩
  · rintro ⟨r, hkey, hne⟩
    exact ⟨r, h.lt hkey.2, hkey, hne⟩

/-- A run with a key that is over stays over. -/
theorem Rows.dead (h : Rows s) (hstays : Stays s.world s'.world) (hkey : s.keys r = some key)
    (hdead : s.live r = false) : s'.live r = false := by
  obtain ⟨run, hrun, -⟩ := h.root r key hkey
  obtain ⟨run', hrun', hstatus⟩ := hstays r run hrun
  have hover : run.status.isTerminal = true := by
    by_contra hworks
    rw [not_eq_true] at hworks
    rw [live_iff.mpr ⟨run, hrun, hworks⟩] at hdead
    cases hdead
  rw [eq_false_iff]
  intro hlive
  obtain ⟨other, hother, hworks⟩ := live_iff.mp hlive
  cases hrun'.symm.trans hother
  rw [hstatus hover, hover] at hworks
  cases hworks

theorem canceled_stays (hstays : Stays s.world s'.world) (h : s.Canceled r) : s'.Canceled r := by
  obtain ⟨run, hrun, hcanceled⟩ := h
  obtain ⟨run', hrun', hstatus⟩ := hstays r run hrun
  exact ⟨run', hrun', (hstatus (by rw [hcanceled]; rfl)).trans hcanceled⟩

/-! ## Triggers -/

/-- What a trigger knows of the rows. -/
structure Fits (s : Service) (trigger : Trigger) : Prop where
  superseded : ∀ r, trigger.supersededRunId = some r → s.keys r = some trigger.request.key
  /-- The run that was observed is the one selected, or it is over. -/
  selected : ∀ found, trigger.stage = .selected found →
    (∀ r, found = some r → s.keys r = some trigger.request.key) ∧
      ∀ r, trigger.supersededRunId = some r → found = some r ∨ s.live r = false
  held : ∀ r, trigger.stage.held = some r → trigger.supersededRunId = some r ∧ s.live r = true
  past : trigger.stage = .locked none ∨ trigger.stage = .inserted none →
    ∀ r, trigger.supersededRunId = some r → s.live r = false
  /-- The index has no other live row with the key of one that is inserted. -/
  reserved : ∀ replacing, trigger.stage = .inserted replacing →
    ∀ r, s.LiveKey trigger.request.key r → replacing = some r
  started : ∀ n replaced, trigger.stage = .ended (.started n replaced) →
    s.keys n = some trigger.request.key ∧
      (∀ r, replaced = some r → trigger.supersededRunId = some r ∧ s.Canceled r) ∧
        ∀ r, trigger.supersededRunId = some r → s.live r = false
  existing : ∀ r, trigger.stage = .ended (.existing r) → trigger.request.onConflict = .ignore

/-- What holds between the steps of the system. -/
structure Enrolled (s : Service) : Prop extends Rows s where
  fits : ∀ (i : Nat) trigger, s.triggers[i]? = some trigger → Fits s trigger
  exclusive : ∀ (i j : Nat) first second r, s.triggers[i]? = some first → s.triggers[j]? = some
    second →
    first.stage.held = some r → second.stage.held = some r → i = j
  alone : ∀ (i j : Nat) first second, s.triggers[i]? = some first → s.triggers[j]? = some second →
    first.stage.isInserted = true → second.stage.isInserted = true →
      first.request.key = second.request.key → i = j

/-- Rows are only added, and those a trigger waits on stay. -/
theorem Fits.later (h : Fits s trigger) (hrows : Rows s) (hstays : Stays s.world s'.world)
    (hkeys : ∀ r key, s.keys r = some key → s'.keys r = some key)
    (hheld : ∀ r, trigger.stage.held = some r → s'.live r = true)
    (hreserved : trigger.stage.isInserted = true → ∀ r, s'.LiveKey trigger.request.key r →
      s.LiveKey trigger.request.key r) : Fits s' trigger where
  superseded := fun r hr => hkeys r _ (h.superseded r hr)
  selected := by
    intro found hfound
    obtain ⟨hof, hover⟩ := h.selected found hfound
    refine ⟨fun r hr => hkeys r _ (hof r hr), fun r hr => (hover r hr).imp_right ?_⟩
    exact hrows.dead hstays (h.superseded r hr)
  held := fun r hr => ⟨(h.held r hr).1, hheld r hr⟩
  past := fun hstage r hr => hrows.dead hstays (h.superseded r hr) (h.past hstage r hr)
  reserved := by
    intro replacing hstage r hlive
    exact h.reserved replacing hstage r (hreserved (by rw [hstage]; rfl) r hlive)
  started := by
    intro n replaced hstage
    obtain ⟨hkey, hreplaced, hover⟩ := h.started n replaced hstage
    refine ⟨hkeys n _ hkey, fun r hr => ?_, fun r hr =>
      hrows.dead hstays (h.superseded r hr) (hover r hr)⟩
    exact ⟨(hreplaced r hr).1, canceled_stays hstays (hreplaced r hr).2⟩
  existing := h.existing

/-- A trigger alone goes on. -/
theorem Fits.same (h : Fits s trigger) (hworld : s'.world = s.world) (hkeys : s'.keys = s.keys) :
    Fits s' trigger := by
  obtain ⟨world, keys, triggers⟩ := s
  obtain ⟨world', keys', triggers'⟩ := s'
  obtain rfl : world' = world := hworld
  obtain rfl : keys' = keys := hkeys
  exact { h with }

theorem Rows.same (h : Rows s) (hworld : s'.world = s.world) (hkeys : s'.keys = s.keys) :
    Rows s' := by
  obtain ⟨world, keys, triggers⟩ := s
  obtain ⟨world', keys', triggers'⟩ := s'
  obtain rfl : world' = world := hworld
  obtain rfl : keys' = keys := hkeys
  exact ⟨h.bounded, h.root, h.unique⟩

theorem getElem?_set_cases {list : List α} {i : Nat} {x y : α}
    (h : (list.set t y)[i]? = some x) : i = t ∧ x = y ∨ i ≠ t ∧ list[i]? = some x := by
  rw [List.getElem?_set] at h
  split at h
  · rename_i hsame
    split at h
    · exact .inl ⟨hsame.symm, (some.inj h).symm⟩
    · cases h
  · rename_i hne
    exact .inr ⟨fun heq => hne heq.symm, h⟩

/-- **A step of a trigger alone**: it takes a lock or a place in the index that no other has. -/
theorem Enrolled.set (h : Enrolled s) (hget : s.triggers[t]? = some trigger)
    (hfits : Fits s trigger')
    (hheld : ∀ r, trigger'.stage.held = some r → trigger.stage.held = some r ∨
      ∀ other ∈ s.triggers, other.stage.held ≠ some r)
    (hinserted : trigger'.stage.isInserted = true → ∀ other ∈ s.triggers,
      other.stage.isInserted = true → other.request.key ≠ trigger'.request.key) :
    Enrolled (s.setTrigger t trigger') where
  toRows := h.toRows.same rfl rfl
  fits := by
    intro i other hother
    rcases getElem?_set_cases hother with ⟨-, rfl⟩ | ⟨-, hold⟩
    · exact hfits.same rfl rfl
    · exact (h.fits i other hold).same rfl rfl
  exclusive := by
    intro i j first second r hfirst hsecond hr hr'
    rcases getElem?_set_cases hfirst with ⟨rfl, rfl⟩ | ⟨hi, hold⟩
    · rcases getElem?_set_cases hsecond with ⟨rfl, -⟩ | ⟨hj, hold'⟩
      · rfl
      · rcases hheld r hr with hown | hnone
        · exact absurd (h.exclusive _ j trigger second r hget hold' hown hr').symm hj
        · exact absurd hr' (hnone second (mem_of_getElem? hold'))
    · rcases getElem?_set_cases hsecond with ⟨rfl, rfl⟩ | ⟨hj, hold'⟩
      · rcases hheld r hr' with hown | hnone
        · exact absurd (h.exclusive i _ first trigger r hold hget hr hown) hi
        · exact absurd hr (hnone first (mem_of_getElem? hold))
      · exact h.exclusive i j first second r hold hold' hr hr'
  alone := by
    intro i j first second hfirst hsecond hr hr' hkey
    rcases getElem?_set_cases hfirst with ⟨rfl, rfl⟩ | ⟨hi, hold⟩
    · rcases getElem?_set_cases hsecond with ⟨rfl, -⟩ | ⟨hj, hold'⟩
      · rfl
      · exact absurd hkey.symm (hinserted hr second (mem_of_getElem? hold') hr')
    · rcases getElem?_set_cases hsecond with ⟨rfl, rfl⟩ | ⟨hj, hold'⟩
      · exact absurd hkey (hinserted hr' first (mem_of_getElem? hold) hr)
      · exact h.alone i j first second hold hold' hr hr' hkey

/-! ## Steps that write no run -/

/-- A stage with nothing locked and nothing inserted. -/
theorem Enrolled.release (h : Enrolled s) (hget : s.triggers[t]? = some trigger)
    (hfits : Fits s trigger') (hheld : trigger'.stage.held = none)
    (hinserted : trigger'.stage.isInserted = false) : Enrolled (s.setTrigger t trigger') := by
  refine h.set hget hfits (fun r hr => ?_) fun hr => ?_
  · rw [hheld] at hr
    cases hr
  · rw [hinserted] at hr
    cases hr

/-- Out of its transaction a trigger holds nothing. -/
def Stage.isOut : Stage → Bool
  | .preparing | .refused | .ended _ => true
  | _ => false

theorem fits_out (hout : trigger.stage.isOut = true)
    (hsuperseded : ∀ r, trigger.supersededRunId = some r → s.keys r = some trigger.request.key)
    (hstarted : ∀ n replaced, trigger.stage = .ended (.started n replaced) →
      s.keys n = some trigger.request.key ∧
        (∀ r, replaced = some r → trigger.supersededRunId = some r ∧ s.Canceled r) ∧
          ∀ r, trigger.supersededRunId = some r → s.live r = false)
    (hexisting : ∀ r, trigger.stage = .ended (.existing r) →
      trigger.request.onConflict = .ignore) : Fits s trigger := by
  obtain ⟨request, superseded, stage⟩ := trigger
  refine ⟨hsuperseded, fun found heq => ?_, fun r heq => ?_, fun heq => ?_, fun replacing heq => ?_,
    hstarted, hexisting⟩
  · rw [show stage = .selected found from heq] at hout
    cases hout
  · cases stage with
    | preparing => cases heq
    | refused => cases heq
    | ended outcome => cases heq
    | _ => cases hout
  · rcases heq with heq | heq <;>
    · rw [heq] at hout
      cases hout
  · rw [heq] at hout
    cases hout

theorem Fits.refused (h : Fits s trigger) : Fits s { trigger with stage := .refused } :=
  fits_out rfl h.superseded (fun _ _ heq => by cases heq) fun _ heq => by cases heq

/-- An end that started nothing. -/
theorem Fits.ended (h : Fits s trigger) {outcome : Outcome}
    (hstarted : ∀ n replaced, outcome ≠ .started n replaced)
    (hexisting : ∀ r, outcome = .existing r → trigger.request.onConflict = .ignore) :
    Fits s { trigger with stage := .ended outcome } :=
  fits_out rfl h.superseded (fun n replaced heq => absurd (Stage.ended.inj heq)
    (hstarted n replaced))
    fun r heq => hexisting r (Stage.ended.inj heq)

/-- In the transaction, with what is locked. -/
theorem Fits.locked (h : Fits s trigger)
    (hheld : ∀ r, replacing = some r → trigger.supersededRunId = some r ∧ s.live r = true)
    (hpast : replacing = none → ∀ r, trigger.supersededRunId = some r → s.live r = false) :
    Fits s { trigger with stage := .locked replacing } where
  superseded := h.superseded
  selected := fun _ heq => by cases heq
  held := hheld
  past := fun heq => hpast (heq.elim Stage.locked.inj fun heq => by cases heq)
  reserved := fun _ heq => by cases heq
  started := fun _ _ heq => by cases heq
  existing := fun _ heq => by cases heq

section

variable (h : Enrolled s) (hget : s.triggers[t]? = some trigger)
include h hget

theorem Enrolled.select (hs : s.select t trigger = some s') : Enrolled s' := by
  rw [Service.select] at hs
  split at hs
  · cases hs
    have hfits := h.fits t trigger hget
    refine h.release hget ⟨hfits.superseded, ?_, fun _ heq => (by cases heq),
      fun heq => (by rcases heq with heq | heq <;> cases heq), fun _ heq => (by cases heq),
      fun _ _ heq => (by cases heq), fun _ heq => (by cases heq)⟩ rfl rfl
    rintro found ⟨⟩
    refine ⟨fun r hr => ?_, fun r hr => ?_⟩
    · split at hr
      · exact (findActiveByKey_some hr).1
      · cases hr
    · rw [if_pos (by rw [hr]; rfl)]
      cases hlive : s.live r with
      | false => exact .inr rfl
      | true =>
        have hkey : s.LiveKey trigger.request.key r := ⟨hfits.superseded r hr, hlive⟩
        cases hfound : s.findActiveByKey trigger.request.key with
        | none => exact absurd hkey (h.findActiveByKey_none hfound)
        | some other =>
          rw [h.unique _ r other hkey (findActiveByKey_some hfound)]
          exact .inl rfl
  · cases hs

theorem Enrolled.lock (hs : s.lock t trigger = some s') : Enrolled s' := by
  have hfits := h.fits t trigger hget
  rw [Service.lock] at hs
  split at hs
  · rename_i hstage
    cases hs
    refine h.release hget (hfits.locked (fun _ heq => by cases heq) fun _ r hr => ?_) rfl rfl
    rcases (hfits.selected none hstage).2 r hr with heq | hdead
    · cases heq
    · exact hdead
  · rename_i found hstage
    split at hs
    · cases hs
    · rename_i hfree
      cases hs
      cases hlive : s.live found with
      | false =>
        refine h.release hget (hfits.locked (fun _ heq => by cases heq) fun _ r hr => ?_) rfl rfl
        rcases (hfits.selected _ hstage).2 r hr with heq | hdead
        · cases heq
          exact hlive
        · exact hdead
      | true =>
        rw [if_pos rfl]
        split
        · rename_i hsame
          refine h.set hget (hfits.locked (fun r heq => ?_) fun heq => by cases heq)
            (fun r heq => ?_) fun heq => by cases heq
          · cases heq
            exact ⟨hsame, hlive⟩
          · cases heq
            refine .inr fun other hother hheld => hfree (List.any_eq_true.mpr ⟨other, hother, ?_⟩)
            exact decide_eq_true hheld
        · exact h.release hget (hfits.ended (fun _ _ heq => by cases heq)
            fun _ heq => by cases heq) rfl rfl
  · cases hs

theorem Enrolled.insert (hs : s.insert t trigger = some s') : Enrolled s' := by
  have hfits := h.fits t trigger hget
  rw [Service.insert] at hs
  split at hs
  · rename_i replacing hstage
    split at hs
    · cases hs
    · rename_i hfree
      cases hs
      by_cases hocc : s.occupied trigger.request.key replacing = true
      · rw [if_pos hocc]
        exact h.release hget hfits.refused rfl rfl
      · rw [if_neg hocc]
        refine h.set hget ⟨hfits.superseded, fun _ heq => (by cases heq), fun r hr => ?_,
          fun heq r hr => ?_, ?_, fun _ _ heq => (by cases heq), fun _ heq => (by cases heq)⟩
          (fun r hr => ?_) fun _ other hother hinserted hkey => ?_
        · exact hfits.held r (by rw [hstage]; exact hr)
        · refine hfits.past (.inl ?_) r hr
          rcases heq with heq | heq
          · cases heq
          · rw [hstage, Stage.inserted.inj heq]
        · rintro replacing' ⟨⟩ r hkey
          by_contra hne
          exact hocc (h.occupied.mpr ⟨r, hkey, hne⟩)
        · exact .inl (by rw [hstage]; exact hr)
        · refine hfree (List.any_eq_true.mpr ⟨other, hother, ?_⟩)
          rw [hinserted, Bool.true_and]
          exact decide_eq_true hkey
  · cases hs

theorem Enrolled.resolve (hs : s.resolve t trigger = some s') : Enrolled s' := by
  rw [Service.resolve] at hs
  split at hs
  · cases hs
    refine h.release hget ((h.fits t trigger hget).ended ?_ ?_) rfl rfl
    · intro n replaced
      rw [Service.resolveEnrollmentRace]
      split
      · split <;>
        · intro heq
          cases heq
      · intro heq
        cases heq
    · intro r
      rw [Service.resolveEnrollmentRace]
      split
      · split
        · rename_i hignore
          exact fun _ => hignore
        · intro heq
          cases heq
      · intro heq
        cases heq
  · cases hs

theorem Enrolled.fail (hs : s.fail t trigger = some s') : Enrolled s' := by
  rw [Service.fail] at hs
  split at hs
  · cases hs
  · cases hs
    exact h.release hget ((h.fits t trigger hget).ended (fun _ _ heq => by cases heq)
      fun _ heq => by cases heq) rfl rfl

end

theorem fits_request (s : Service) (request : Request) :
    Fits s (s.resolveEnrollmentConflict request) ∧
      (s.resolveEnrollmentConflict request).stage.isOut = true := by
  rw [Service.resolveEnrollmentConflict]
  split
  · exact ⟨fits_out rfl (fun _ heq => by cases heq) (fun _ _ heq => by cases heq)
      (fun _ heq => by cases heq), rfl⟩
  · rename_i existing hfound
    split
    · exact ⟨fits_out rfl (fun _ heq => by cases heq) (fun _ _ heq => by cases heq)
        (fun _ heq => by cases heq), rfl⟩
    · rename_i hignore
      exact ⟨fits_out rfl (fun _ heq => by cases heq) (fun _ _ heq => by cases heq)
        fun _ _ => hignore, rfl⟩
    · refine ⟨fits_out rfl (fun r heq => ?_) (fun _ _ heq => by cases heq)
        (fun _ heq => by cases heq), rfl⟩
      cases heq
      exact (findActiveByKey_some hfound).1

theorem getElem?_append_cases {list : List α} {i : Nat} {x y : α}
    (h : (list ++ [y])[i]? = some x) : x = y ∨ list[i]? = some x := by
  rw [List.getElem?_append] at h
  split at h
  · exact .inr h
  · obtain ⟨hlt, heq⟩ := List.getElem?_eq_some_iff.mp h
    exact .inl (heq.symm.trans (getElem_singleton _))

theorem held_out {stage : Stage} (h : stage.isOut = true) :
    stage.held = none ∧ stage.isInserted = false := by
  cases stage with
  | preparing => exact ⟨rfl, rfl⟩
  | refused => exact ⟨rfl, rfl⟩
  | ended outcome => exact ⟨rfl, rfl⟩
  | _ => cases h

/-- A new trigger has read the live run of its key. -/
theorem Enrolled.request (h : Enrolled s) (request : Request) :
    Enrolled { s with triggers := s.triggers ++ [s.resolveEnrollmentConflict request] } := by
  obtain ⟨hfits, hout⟩ := fits_request s request
  obtain ⟨hheld, hinserted⟩ := held_out hout
  refine ⟨h.toRows.same rfl rfl, fun i trigger hget => ?_,
    fun i j first second r hfirst hsecond hr hr' => ?_,
    fun i j first second hfirst hsecond hr hr' hkey => ?_⟩
  · rcases getElem?_append_cases hget with rfl | hold
    · exact hfits.same rfl rfl
    · exact (h.fits i trigger hold).same rfl rfl
  · rcases getElem?_append_cases hfirst with rfl | hold
    · rw [hheld] at hr
      cases hr
    · rcases getElem?_append_cases hsecond with rfl | hold'
      · rw [hheld] at hr'
        cases hr'
      · exact h.exclusive i j first second r hold hold' hr hr'
  · rcases getElem?_append_cases hfirst with rfl | hold
    · rw [hinserted] at hr
      cases hr
    · rcases getElem?_append_cases hsecond with rfl | hold'
      · rw [hinserted] at hr'
        cases hr'
      · exact h.alone i j first second hold hold' hr hr' hkey

/-! ## Steps that write runs -/

/-- What a commit writes. -/
structure Commits (s s' : Service) (t : Nat) (trigger : Trigger) (replacing : Option RunId) : Prop
    where
  stage : trigger.stage = .inserted replacing
  triggers : s'.triggers = s.triggers.set t
    { trigger with stage := .ended (.started s.world.nextRun replacing) }
  keys : s'.keys = Function.update s.keys s.world.nextRun (some trigger.request.key)
  grows : Grows s.world s'.world
  new : ∃ run, s'.world.runs s.world.nextRun = some run ∧ run.parent = none ∧
    run.status = .pending
  /-- No other run with a key is written. -/
  kept : ∀ r key, s.keys r = some key → replacing ≠ some r → s'.world.runs r = s.world.runs r
  canceled : ∀ r, replacing = some r → s'.Canceled r

theorem Enrolled.commits (h : Enrolled s) (hget : s.triggers[t]? = some trigger)
    (hs : s.commit t trigger = some s') : ∃ replacing, Commits s s' t trigger replacing := by
  rw [Service.commit] at hs
  split at hs
  · rename_i replacing hstage
    obtain ⟨canceled, hcanceled, hs⟩ := bind_eq_some_iff.mp hs
    obtain ⟨world, hworld, hs⟩ := bind_eq_some_iff.mp hs
    cases hs
    obtain ⟨⟨run, hrun, hparent, hpending⟩, hothers⟩ := runs_initializeRun hworld
    have hlt : ∀ {r key}, s.keys r = some key → r < s.world.nextRun := by
      intro r key hkey
      obtain ⟨run, hrun, -⟩ := h.root r key hkey
      exact h.bounded r run hrun
    cases replacing with
    | none =>
      cases hcanceled
      refine ⟨none, hstage, rfl, rfl, (Moves.initializeRun hworld).grows,
        ⟨run, hrun, hparent, hpending⟩,
        fun r key hkey _ => hothers r (Nat.ne_of_lt (hlt hkey)), fun _ heq => by cases heq⟩
    | some replaced =>
      obtain ⟨hsuper, hlive⟩ := (h.fits t trigger hget).held replaced (by rw [hstage]; rfl)
      have hkey := (h.fits t trigger hget).superseded replaced hsuper
      obtain ⟨old, hold, hroot⟩ := h.root replaced _ hkey
      obtain ⟨hnext, hruns⟩ := runs_cancelWithin hold hroot hcanceled
      rw [hnext] at hrun hothers
      refine ⟨some replaced, hstage, by rw [hnext], by rw [hnext],
        (Grows.cancelWithin hcanceled).trans (Moves.initializeRun hworld).grows,
        ⟨run, hrun, hparent, hpending⟩, fun r key hkey hne => ?_, fun r heq => ?_⟩
      · rw [hothers r (Nat.ne_of_lt (hlt hkey)), hruns]
        obtain ⟨other, hother, hroot'⟩ := h.root r key hkey
        rw [hother, map_some, World.canceledRun, if_neg]
        rintro ⟨hmem, -⟩
        rcases mem_lockRunHierarchy hmem with heq | ⟨called, hcalled, hparent'⟩
        · exact hne (congrArg some heq.symm)
        · cases hother.symm.trans hcalled
          exact hparent' hroot'
      · cases heq
        obtain ⟨other, hother, hworks⟩ := live_iff.mp hlive
        have hrow : world.runs replaced = some { other with
            status := .canceled, cancelReason := some (Service.reason trigger.request.key) } := by
          rw [hothers replaced (Nat.ne_of_lt (hlt hkey)), hruns, hother, map_some,
            World.canceledRun, if_pos ⟨root_mem_lockRunHierarchy _ _, hworks⟩]
        exact ⟨_, hrow, rfl⟩
  · cases hs

section

variable (h : Commits s s' t trigger replacing)
include h

/-- A run with a key that is live after a commit was live before, or is the new one. -/
theorem Commits.live_old (hrows : Rows s)
    (hkey : s.keys r = some key) (hlive : s'.live r = true) : s.live r = true := by
  by_contra hdead
  rw [not_eq_true] at hdead
  rw [hrows.dead (h.grows hrows.bounded).2.2.1 hkey hdead] at hlive
  cases hlive

omit h in
theorem not_live_of_canceled (h : s.Canceled r) : s.live r = false := by
  obtain ⟨run, hrun, hcanceled⟩ := h
  rw [Service.live, hrun, any_some, hcanceled]
  rfl

theorem Commits.keys_new : s'.keys s.world.nextRun = some trigger.request.key := by
  rw [h.keys, Function.update_self]

theorem Commits.keys_old (hne : r ≠ s.world.nextRun) : s'.keys r = s.keys r := by
  rw [h.keys, Function.update_of_ne hne]

omit h in
theorem Rows.ne_next (h : Rows s) (hkey : s.keys r = some key) : r ≠ s.world.nextRun := by
  obtain ⟨run, hrun, -⟩ := h.root r key hkey
  exact Nat.ne_of_lt (h.bounded r run hrun)

theorem Commits.rows (hrows : Rows s) (hfits : Fits s trigger) : Rows s' := by
  obtain ⟨hbounded, -, hstays, hparents⟩ := h.grows hrows.bounded
  refine ⟨hbounded, fun r key hkey => ?_, fun key r r' hr hr' => ?_⟩
  · by_cases hsame : r = s.world.nextRun
    · obtain ⟨run, hrun, hparent, -⟩ := h.new
      exact ⟨run, hsame ▸ hrun, hparent⟩
    · rw [h.keys_old hsame] at hkey
      obtain ⟨run, hrun, hroot⟩ := hrows.root r key hkey
      obtain ⟨run', hrun', -⟩ := hstays r run hrun
      rcases hparents r run' hrun' with ⟨old, hold, hparent⟩ | ⟨hnone, -⟩
      · cases hrun.symm.trans hold
        exact ⟨run', hrun', hparent.trans hroot⟩
      · rw [hnone] at hrun
        cases hrun
  · -- An old live run of the key would be the one that is canceled.
    have hold : ∀ {x}, x ≠ s.world.nextRun → s'.LiveKey key x → s.LiveKey key x := by
      intro x hne ⟨hkey, hlive⟩
      rw [h.keys_old hne] at hkey
      exact ⟨hkey, h.live_old hrows hkey hlive⟩
    have hnone : ∀ {x}, x ≠ s.world.nextRun → s'.LiveKey key x →
        key ≠ trigger.request.key := by
      intro x hne hx hkey
      have hreplaced := hfits.reserved replacing h.stage x (hkey ▸ hold hne hx)
      have hlive := hx.2
      rw [not_live_of_canceled (h.canceled x hreplaced)] at hlive
      cases hlive
    have hnew : ∀ {x}, x = s.world.nextRun → s'.LiveKey key x → key = trigger.request.key := by
      rintro x rfl ⟨hkey, -⟩
      rw [h.keys_new] at hkey
      exact (some.inj hkey).symm
    by_cases hr₀ : r = s.world.nextRun
    · by_cases hr₁ : r' = s.world.nextRun
      · exact hr₀.trans hr₁.symm
      · exact absurd (hnew hr₀ hr) (hnone hr₁ hr')
    · by_cases hr₁ : r' = s.world.nextRun
      · exact absurd (hnew hr₁ hr') (hnone hr₀ hr)
      · exact hrows.unique key r r' (hold hr₀ hr) (hold hr₁ hr')

end

theorem Enrolled.commit (h : Enrolled s) (hget : s.triggers[t]? = some trigger)
    (hs : s.commit t trigger = some s') : Enrolled s' := by
  obtain ⟨replacing, hcommit⟩ := h.commits hget hs
  have hfits := h.fits t trigger hget
  have hrows := hcommit.rows h.toRows hfits
  obtain ⟨-, -, hstays, -⟩ := hcommit.grows h.bounded
  have hkeys : ∀ r key, s.keys r = some key → s'.keys r = some key := fun r key hkey =>
    (hcommit.keys_old (h.ne_next hkey)).trans hkey
  refine ⟨hrows, fun i other hother => ?_, fun i j first second r hfirst hsecond hr hr' => ?_,
    fun i j first second hfirst hsecond hr hr' hkey => ?_⟩
  · rw [hcommit.triggers] at hother
    rcases getElem?_set_cases hother with ⟨-, rfl⟩ | ⟨hne, hold⟩
    · refine fits_out rfl (fun r hr => hkeys r _ (hfits.superseded r hr)) ?_
        fun _ heq => by cases heq
      rintro n replaced ⟨⟩
      refine ⟨hcommit.keys_new, fun r hr => ⟨?_, hcommit.canceled r hr⟩, fun r hr => ?_⟩
      · exact (hfits.held r (by rw [hcommit.stage]; exact hr)).1
      · cases replacing with
        | none =>
          exact h.dead hstays (hfits.superseded r hr) (hfits.past (.inr hcommit.stage) r hr)
        | some replaced =>
          have hown := (hfits.held replaced (by rw [hcommit.stage]; rfl)).1
          cases hown.symm.trans hr
          exact not_live_of_canceled (hcommit.canceled _ rfl)
    · have hown := h.fits i other hold
      refine hown.later h.toRows hstays hkeys (fun r hr => ?_) fun hinserted r hlive => ?_
      · -- Another trigger has locked another run.
        have hkey := hown.superseded r (hown.held r hr).1
        have hrow : replacing ≠ some r := fun heq =>
          hne (h.exclusive i t other trigger r hold hget hr (by rw [hcommit.stage]; exact heq))
        obtain ⟨run, hrun, hworks⟩ := live_iff.mp (hown.held r hr).2
        exact live_iff.mpr ⟨run, (hcommit.kept r _ hkey hrow).trans hrun, hworks⟩
      · by_cases hsame : r = s.world.nextRun
        · subst hsame
          have hkey := hlive.1
          rw [hcommit.keys_new, some.injEq] at hkey
          refine absurd (h.alone i t other trigger hold hget hinserted ?_ hkey.symm) hne
          rw [hcommit.stage]
          rfl
        · have hkey := hlive.1
          rw [hcommit.keys_old hsame] at hkey
          exact ⟨hkey, hcommit.live_old h.toRows hkey hlive.2⟩
  · rw [hcommit.triggers] at hfirst hsecond
    rcases getElem?_set_cases hfirst with ⟨-, rfl⟩ | ⟨-, hold⟩
    · cases hr
    · rcases getElem?_set_cases hsecond with ⟨-, rfl⟩ | ⟨-, hold'⟩
      · cases hr'
      · exact h.exclusive i j first second r hold hold' hr hr'
  · rw [hcommit.triggers] at hfirst hsecond
    rcases getElem?_set_cases hfirst with ⟨-, rfl⟩ | ⟨-, hold⟩
    · cases hr
    · rcases getElem?_set_cases hsecond with ⟨-, rfl⟩ | ⟨-, hold'⟩
      · cases hr'
      · exact h.alone i j first second hold hold' hr hr' hkey

/-- **Another transaction**: it waits for the rows that are locked, and gives no run a key. -/
theorem Enrolled.run (h : Enrolled s) {world : World} (hgrows : Grows s.world world)
    (hmay : s.mayRun world = true) : Enrolled { s with world } := by
  obtain ⟨hbounded, -, hstays, hparents⟩ := hgrows h.bounded
  have hold : ∀ {key r}, Service.LiveKey { s with world } key r → s.LiveKey key r := by
    intro key r ⟨hkey, hlive⟩
    refine ⟨hkey, ?_⟩
    by_contra hdead
    rw [not_eq_true] at hdead
    have hover : Service.live { s with world } r = false := h.dead hstays hkey hdead
    rw [hover] at hlive
    cases hlive
  have hrows : Rows { s with world } := by
    refine ⟨hbounded, fun r key hkey => ?_, fun key r r' hr hr' =>
      h.unique key r r' (hold hr) (hold hr')⟩
    obtain ⟨run, hrun, hroot⟩ := h.root r key hkey
    obtain ⟨run', hrun', -⟩ := hstays r run hrun
    rcases hparents r run' hrun' with ⟨old, hrow, hparent⟩ | ⟨hnone, -⟩
    · cases hrun.symm.trans hrow
      exact ⟨run', hrun', hparent.trans hroot⟩
    · rw [hnone] at hrun
      cases hrun
  refine ⟨hrows, fun i trigger hget => ?_, h.exclusive, h.alone⟩
  have hfits := h.fits i trigger hget
  refine hfits.later h.toRows hstays (fun _ _ hkey => hkey) (fun r hr => ?_) fun _ r => hold
  have hsame := all_eq_true.mp hmay trigger (mem_of_getElem? hget)
  rw [hr, all_some, decide_eq_true_eq] at hsame
  obtain ⟨run, hrun, hworks⟩ := live_iff.mp (hfits.held r hr).2
  rw [hrun, map_some, map_eq_some_iff] at hsame
  obtain ⟨run', hrun', hstatus⟩ := hsame
  exact live_iff.mpr ⟨run', hrun', by rw [hstatus, hworks]⟩

theorem Enrolled.step (h : Enrolled s) (hs : step values s action = some s') : Enrolled s' := by
  cases action with
  | request request =>
    cases hs
    exact h.request request
  | select t =>
    obtain ⟨trigger, hget, hs⟩ := bind_eq_some_iff.mp hs
    exact h.select hget hs
  | lock t =>
    obtain ⟨trigger, hget, hs⟩ := bind_eq_some_iff.mp hs
    exact h.lock hget hs
  | insert t =>
    obtain ⟨trigger, hget, hs⟩ := bind_eq_some_iff.mp hs
    exact h.insert hget hs
  | commit t =>
    obtain ⟨trigger, hget, hs⟩ := bind_eq_some_iff.mp hs
    exact h.commit hget hs
  | resolve t =>
    obtain ⟨trigger, hget, hs⟩ := bind_eq_some_iff.mp hs
    exact h.resolve hget hs
  | fail t =>
    obtain ⟨trigger, hget, hs⟩ := bind_eq_some_iff.mp hs
    exact h.fail hget hs
  | run action =>
    rw [Enrollment.step] at hs
    split at hs
    · cases hs
    · rename_i world hworld
      split at hs
      · rename_i hmay
        cases hs
        exact h.run (.step hworld) hmay
      · cases hs

theorem enrolled_empty (now : Nat) : Enrolled (empty now) where
  bounded := fun _ _ h => absurd h.symm (some_ne_none _)
  root := fun _ _ h => absurd h.symm (some_ne_none _)
  unique := fun _ _ _ h => absurd h.1.symm (some_ne_none _)
  fits := fun i _ h => absurd h (by rw [empty, List.getElem?_nil]; exact (some_ne_none _).symm)
  exclusive := fun i _ _ _ _ h => absurd h
    (by rw [empty, List.getElem?_nil]; exact (some_ne_none _).symm)
  alone := fun i _ _ _ h => absurd h
    (by rw [empty, List.getElem?_nil]; exact (some_ne_none _).symm)

/-- What holds in every state of a run of the system. -/
theorem enrolled_reachable {now : Nat} (h : Reach (step values) anyEvent (empty now) s) :
    Enrolled s :=
  h.invariant (enrolled_empty now) fun _ _ _ henrolled _ => henrolled.step

/-- What a step does to the runs with keys. -/
def Service.Replaces (s s' : Service) : Action → Prop
  | .commit t => ∃ trigger replacing, s.triggers[t]? = some trigger ∧
      Commits s s' t trigger replacing ∧
        (∀ r, replacing = some r → trigger.supersededRunId = some r ∧ s.live r = true) ∧
          ∀ r, trigger.supersededRunId = some r → s'.live r = false
  | .run _ => True
  | _ => s'.world = s.world ∧ s'.keys = s.keys

theorem Enrolled.replaces (h : Enrolled s)
    (hs : Enrollment.step values s action = some s') : s.Replaces s' action := by
  cases action with
  | request request =>
    cases hs
    exact ⟨rfl, rfl⟩
  | commit t =>
    have henrolled := h.step hs
    obtain ⟨trigger, hget, hs⟩ := bind_eq_some_iff.mp hs
    obtain ⟨replacing, hcommit⟩ := h.commits hget hs
    have hfits := h.fits t trigger hget
    have hended : s'.triggers[t]? = some { trigger with
        stage := .ended (.started s.world.nextRun replacing) } := by
      rw [hcommit.triggers]
      exact List.getElem?_set_self (List.getElem?_eq_some_iff.mp hget).1
    refine ⟨trigger, replacing, hget, hcommit, fun r hr => hfits.held r ?_,
      ((henrolled.fits t _ hended).started _ _ rfl).2.2⟩
    rw [hcommit.stage]
    exact hr
  | run action => trivial
  | select t =>
    obtain ⟨trigger, hget, hs⟩ := bind_eq_some_iff.mp hs
    rw [Service.select] at hs
    split at hs
    · cases hs
      exact ⟨rfl, rfl⟩
    · cases hs
  | lock t =>
    obtain ⟨trigger, hget, hs⟩ := bind_eq_some_iff.mp hs
    rw [Service.lock] at hs
    split at hs
    · cases hs
      exact ⟨rfl, rfl⟩
    · split at hs
      · cases hs
      · cases hs
        exact ⟨rfl, rfl⟩
    · cases hs
  | insert t =>
    obtain ⟨trigger, hget, hs⟩ := bind_eq_some_iff.mp hs
    rw [Service.insert] at hs
    split at hs
    · split at hs
      · cases hs
      · cases hs
        exact ⟨rfl, rfl⟩
    · cases hs
  | resolve t =>
    obtain ⟨trigger, hget, hs⟩ := bind_eq_some_iff.mp hs
    rw [Service.resolve] at hs
    split at hs
    · cases hs
      exact ⟨rfl, rfl⟩
    · cases hs
  | fail t =>
    obtain ⟨trigger, hget, hs⟩ := bind_eq_some_iff.mp hs
    rw [Service.fail] at hs
    split at hs
    · cases hs
    · cases hs
      exact ⟨rfl, rfl⟩

/--
**Enrollment.** In every state of a run of the system no two live runs have one key. A commit
cancels the run that its restart observed, where that is live still, and no other run with a key,
and has the new run in the same transaction; no other step of a trigger writes a run. A restart
ends with the new run and the observed one over, with a conflict, or with an error.
-/
theorem enrollment_of_runs {now : Nat} (h : Reach (step values) anyEvent (empty now) s) :
    s.AtMostOne ∧ (∀ action s', step values s action = some s' → s.Replaces s' action) ∧
    ∀ trigger ∈ s.triggers, trigger.request.onConflict = .restart →
      ∀ outcome, trigger.stage = .ended outcome →
        (∃ n replaced, outcome = .started n replaced ∧ s.keys n = some trigger.request.key ∧
          (∀ r, replaced = some r → trigger.supersededRunId = some r ∧ s.Canceled r) ∧
            ∀ r, trigger.supersededRunId = some r → s.live r = false) ∨
        (∃ other, outcome = .conflict other) ∨ outcome = .failed := by
  have henrolled := enrolled_reachable h
  refine ⟨henrolled.unique, fun action s' => henrolled.replaces, ?_⟩
  intro trigger htrigger hrestart outcome hended
  obtain ⟨i, hget⟩ := List.getElem?_of_mem htrigger
  have hfits := henrolled.fits i trigger hget
  cases outcome with
  | started n replaced => exact .inl ⟨n, replaced, rfl, hfits.started n replaced hended⟩
  | conflict other => exact .inr (.inl ⟨other, rfl⟩)
  | failed => exact .inr (.inr rfl)
  | existing r =>
    have hignore := hfits.existing r hended
    rw [hrestart] at hignore
    cases hignore

def letter : Key := ⟨"p", "w", "letter"⟩

/-- A run is enrolled, and a restart observes it. -/
def observed : List Action :=
  [.request { key := letter, plan := [⟨.boundary, none⟩] }, .select 0, .lock 0, .insert 0,
    .commit 0, .request { key := letter, onConflict := .restart, plan := [⟨.boundary, none⟩] }]

def restarted : List Action := [.select 1, .lock 1, .insert 1, .commit 1]

def noValues : Values := ⟨fun _ => "", fun _ => "", fun _ => 0, id, fun _ => none⟩

/-- The stages of the triggers, and the statuses of two runs. -/
def Service.shows (s : Service) : List Stage × Option RunStatus × Option RunStatus :=
  (s.triggers.map Trigger.stage, (s.world.runs 0).map Run.status, (s.world.runs 1).map Run.status)

theorem enrollment_of_runs_restarted :
    ∃ s, exec (step noValues) (empty 0) (observed ++ restarted) = some s ∧
      s.shows = ([.ended (.started 0 none), .ended (.started 1 (some 0))], some .canceled,
        some .pending) ∧ s.AtMostOne := by
  have hrun : (exec (step noValues) (empty 0) (observed ++ restarted)).map Service.shows =
      some ([.ended (.started 0 none), .ended (.started 1 (some 0))], some .canceled,
        some .pending) := by
    decide +kernel
  obtain ⟨s, hs, hshows⟩ := map_eq_some_iff.mp hrun
  exact ⟨s, hs, hshows, (enrollment_of_runs (reach_of_exec hs)).1⟩

/-- The run that a restart observed ends on its own: the restart cancels nothing, and starts. -/
def outlived : List Action :=
  observed ++ [.run (.beginAttempt 0 0 true .boundary), .run (.completeStep 0 .null true)] ++
    restarted

theorem restart_cancels_nothing :
    ¬∀ s, Reach (step noValues) anyEvent (empty 0) s → ∀ trigger ∈ s.triggers,
      trigger.request.onConflict = .restart → ∀ r, trigger.supersededRunId = some r →
        ∀ n replaced, trigger.stage = .ended (.started n replaced) → s.Canceled r := by
  intro hclaim
  have hrun : (exec (step noValues) (empty 0) outlived).map (fun s =>
      ((s.triggers[1]?).map fun trigger =>
        (trigger.request.onConflict, trigger.supersededRunId, trigger.stage),
        (s.world.runs 0).map Run.status)) =
      some (some (.restart, some 0, .ended (.started 1 none)), some .completed) := by
    decide +kernel
  obtain ⟨s, hs, hshows⟩ := map_eq_some_iff.mp hrun
  obtain ⟨htrigger, hstatus⟩ := Prod.mk.inj hshows
  obtain ⟨trigger, hget, hof⟩ := map_eq_some_iff.mp htrigger
  obtain ⟨hrestart, hrest⟩ := Prod.mk.inj hof
  obtain ⟨hsuperseded, hstage⟩ := Prod.mk.inj hrest
  obtain ⟨run, hrow, hcanceled⟩ := hclaim s (reach_of_exec hs) trigger (mem_of_getElem? hget)
    hrestart 0 hsuperseded 1 none hstage
  rw [hrow, map_some, hcanceled] at hstatus
  cases hstatus

end Catamorphic.Execution.Enrollment
