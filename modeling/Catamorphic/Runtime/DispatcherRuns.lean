import Mathlib.Data.List.Perm.Subperm
import Catamorphic.Runtime.Dispatcher

/-!
# Every invocation settles once, in its place

The dispatcher's callbacks call one another: a cancellation in the queue pumps it, what is pumped
may settle at once, and what settles prunes others. All of them are put together from a few
changes, each of which keeps one invariant: an invocation changes, it settles, ids are forgotten,
a call of `execute` begins or returns. That a refused `invoke` met a full queue, and that nothing
is started after it settled, holds where no settled invocation is left in the queue and where the
`started` event has room.
-/

namespace Catamorphic.Runtime

open Runs List Option

variable {options : Options} {values : Values} {w w' : World} {r r' : Ref} {inv inv' : Invocation}
  {id : InvocationId} {ids : List InvocationId} {log : List Note} {answer : Answer}
  {body : EventBody} {request : Request}

/-! ## Retained ids -/

theorem lookup_filter (states : List (InvocationId × Ref)) :
    (states.filter (·.1 ∉ ids)).lookup id = if id ∈ ids then none else states.lookup id := by
  induction states with
  | nil => simp
  | cons p states ih =>
    obtain ⟨id', r'⟩ := p
    by_cases hmem : id' ∈ ids
    · rw [filter_cons_of_neg (by simpa using hmem), ih]
      by_cases hid : id ∈ ids
      · rw [if_pos hid, if_pos hid]
      · have hne : (id == id') = false := by
          simpa using fun heq : id = id' => hid (heq ▸ hmem)
        rw [if_neg hid, if_neg hid, lookup_cons, hne]
    · rw [filter_cons_of_pos (by simpa using hmem), lookup_cons, lookup_cons, ih]
      cases heq : (id == id') with
      | true =>
        have hid : id ∉ ids := by
          rw [beq_iff_eq.mp heq]
          exact hmem
        simp only [if_neg hid]
      | false => rfl

theorem World.lookup_forget : (w.forget ids).lookup id = if id ∈ ids then none else w.lookup id :=
  lookup_filter w.states

theorem lookup_of_mem (hnodup : (w.states.map (·.1)).Nodup) (h : (id, r) ∈ w.states) :
    w.lookup id = some r := by
  obtain ⟨before, after, hstates⟩ := append_of_mem h
  refine lookup_eq_some_iff.mpr ⟨before, after, hstates, fun p hp => ?_⟩
  rw [hstates, map_append, map_cons] at hnodup
  have hdisjoint := (nodup_append.mp hnodup).2.2 p.1 (mem_map_of_mem hp) id
    mem_cons_self
  simpa using fun heq : id = p.1 => hdisjoint heq.symm

/-! ## Logs -/

theorem answerOf_forgot : answerOf (ids.map .forgot ++ log) id =
    if id ∈ ids then none else answerOf log id := by
  induction ids with
  | nil => rfl
  | cons id' ids ih =>
    rw [map_cons, cons_append, answerOf, ih]
    by_cases heq : id' = id
    · rw [if_pos heq, if_pos (heq ▸ mem_cons_self)]
    · rw [if_neg heq]
      simp only [mem_cons, Ne.symm heq, false_or]

theorem ranSince_forgot (h : RanSince (ids.map .forgot ++ log) id) : id ∉ ids ∧ RanSince log
    id := by
  induction ids with
  | nil => exact ⟨not_mem_nil, h⟩
  | cons id' ids ih =>
    obtain ⟨hmem, hran⟩ := ih h.2
    refine ⟨fun hcons => ?_, hran⟩
    rcases mem_cons.mp hcons with heq | htail
    · exact h.1 heq.symm
    · exact hmem htail

theorem history_forgot (h : History options log) : History options (ids.map .forgot ++ log) := by
  induction ids with
  | nil => exact h
  | cons id' ids ih => exact ⟨trivial, ih⟩

/-! ## The invariant -/

/-- What holds of an invocation. -/
structure InvocationInv (w : World) (r : Ref) (inv : Invocation) : Prop where
  fresh : r < w.nextRef
  retained : inv.status ≠ .done → w.lookup inv.request.invocationId = some r
  numbered : inv.events.map (·.sequence) = List.range' 1 inv.events.length
  pending : inv.status ≠ .done → inv.answer = none ∧ ∀ event ∈ inv.events, ¬ event.IsTerminal
  quiet : inv.status = .done → inv.waiters = []
  answers : ∀ answer, inv.answer = some answer ↔ .settled r answer ∈ w.log
  terminal : ∀ events terminal, inv.answer = some (.resolved events terminal) →
    events = inv.events ∧
      ∃ before last, events = before ++ [last] ∧ last.body = .terminal terminal.outcome ∧
        ∀ event ∈ before, ¬ event.IsTerminal
  queued : inv.status = .queued → inv.execution = .notCalled
  active : inv.status = .active → inv.execution.UnderWay
  ending : inv.execution = .terminating → inv.status = .done
  executing : r ∈ w.executing ↔ inv.execution.UnderWay

/-- A worker was called. -/
def Execution.HasRun : Execution → Prop
  | .notCalled | .directory => False
  | _ => True

structure Inv (options : Options) (w : World) : Prop where
  history : History options w.log
  answered : ∀ id, answerOf w.log id = w.lookup id
  ran : ∀ id, RanSince w.log id →
    ∃ r inv, w.lookup id = some r ∧ w.invocations r = some inv ∧ inv.execution.HasRun
  keys : ∀ p ∈ w.states, ∃ inv, w.invocations p.2 = some inv ∧ inv.request.invocationId = p.1
  nodup : (w.states.map (·.1)).Nodup
  count : w.activeCount = w.executing.length
  room : w.executing.length ≤ options.maxConcurrency
  executing : w.executing.Nodup
  called : ∀ r ∈ w.executing, ∃ inv, w.invocations r = some inv
  waiting : ∀ r ∈ w.queue, ∃ inv, w.invocations r = some inv
  settled : ∀ r answer, .settled r answer ∈ w.log → ∃ inv, w.invocations r = some inv
  each : ∀ r inv, w.invocations r = some inv → InvocationInv w r inv

/-- What holds of an invocation does not depend on others. -/
theorem InvocationInv.frame (h : InvocationInv w r inv) (hfresh : w.nextRef ≤ w'.nextRef)
    (hretained : inv.status ≠ .done → w.lookup inv.request.invocationId = some r →
      w'.lookup inv.request.invocationId = some r)
    (hlog : ∀ answer, .settled r answer ∈ w'.log ↔ .settled r answer ∈ w.log)
    (hexecuting : r ∈ w'.executing ↔ r ∈ w.executing) : InvocationInv w' r inv :=
  { h with
    fresh := Nat.lt_of_lt_of_le h.fresh hfresh
    retained := fun hs => hretained hs (h.retained hs)
    answers := fun answer => (h.answers answer).trans (hlog answer).symm
    executing := hexecuting.trans h.executing }

/-! ## The changes that callbacks are made of -/

@[simp] theorem World.put_self : (w.put r inv).invocations r = some inv := Function.update_self ..

theorem World.put_other (h : r' ≠ r) : (w.put r inv).invocations r' = w.invocations r' :=
  Function.update_of_ne h ..

section

variable (h : Inv options w) (hr : w.invocations r = some inv)
include h hr

/-- An invocation changes; what is noted, and who is executing, is about it. -/
theorem Inv.change {executing : List Ref}
    {activeCount : Int} (hcount : activeCount = executing.length)
    (hroom : executing.length ≤ options.maxConcurrency) (hnodup : executing.Nodup)
    (hexecuting : ∀ r₁ ≠ r, r₁ ∈ executing ↔ r₁ ∈ w.executing)
    (hrequest : inv'.request = inv.request) (hhistory : History options log)
    (hanswered : ∀ id, answerOf log id = answerOf w.log id)
    (hran : inv.execution.HasRun → inv'.execution.HasRun) (hnew : ∀ id, RanSince log id →
      RanSince w.log id ∨ w.lookup id = some r ∧ inv'.execution.HasRun)
    (hsettled : ∀ r₁ ≠ r, ∀ answer, .settled r₁ answer ∈ log ↔ .settled r₁ answer ∈ w.log)
    (hinv : InvocationInv { w with log, executing } r inv') :
    Inv options { w.put r inv' with log, executing, activeCount } where
  history := hhistory
  answered id := (hanswered id).trans (h.answered id)
  ran id hid := by
    rcases hnew id hid with hold | ⟨hlookup, hrun⟩
    · obtain ⟨r₁, inv₁, hlookup, hinv₁, hrun⟩ := h.ran id hold
      by_cases heq : r₁ = r
      · subst heq
        cases hr.symm.trans hinv₁
        exact ⟨r₁, inv', hlookup, World.put_self, hran hrun⟩
      · exact ⟨r₁, inv₁, hlookup, (World.put_other heq).trans hinv₁, hrun⟩
    · exact ⟨r, inv', hlookup, World.put_self, hrun⟩
  keys p hp := by
    obtain ⟨inv₁, hinv₁, hid⟩ := h.keys p hp
    by_cases heq : p.2 = r
    · refine ⟨inv', heq ▸ World.put_self, ?_⟩
      rw [heq, hr] at hinv₁
      rw [hrequest, some.inj hinv₁]
      exact hid
    · exact ⟨inv₁, (World.put_other heq).trans hinv₁, hid⟩
  nodup := h.nodup
  count := hcount
  room := hroom
  executing := hnodup
  called r₁ hmem := by
    by_cases heq : r₁ = r
    · exact ⟨inv', heq ▸ World.put_self⟩
    · obtain ⟨inv₁, hinv₁⟩ := h.called r₁ ((hexecuting r₁ heq).mp hmem)
      exact ⟨inv₁, (World.put_other heq).trans hinv₁⟩
  waiting r₁ hmem := by
    by_cases heq : r₁ = r
    · exact ⟨inv', heq ▸ World.put_self⟩
    · obtain ⟨inv₁, hinv₁⟩ := h.waiting r₁ hmem
      exact ⟨inv₁, (World.put_other heq).trans hinv₁⟩
  settled r₁ answer hmem := by
    by_cases heq : r₁ = r
    · exact ⟨inv', heq ▸ World.put_self⟩
    · obtain ⟨inv₁, hinv₁⟩ := h.settled r₁ answer ((hsettled r₁ heq answer).mp hmem)
      exact ⟨inv₁, (World.put_other heq).trans hinv₁⟩
  each r₁ inv₁ hinv₁ := by
    by_cases heq : r₁ = r
    · subst heq
      cases World.put_self.symm.trans hinv₁
      exact hinv.frame (Nat.le_refl _) (fun _ hl => hl) (fun _ => .rfl) .rfl
    · exact (h.each r₁ inv₁ ((World.put_other heq).symm.trans hinv₁)).frame (Nat.le_refl _)
        (fun _ hl => hl) (hsettled r₁ heq) (hexecuting r₁ heq)

/-- An invocation changes. -/
theorem Inv.put (hrequest : inv'.request = inv.request)
    (hran : inv.execution.HasRun → inv'.execution.HasRun) (hinv : InvocationInv w r inv') :
    Inv options (w.put r inv') :=
  h.change hr h.count h.room h.executing (fun _ _ => .rfl) hrequest h.history (fun _ => rfl) hran 
    (fun _ => .inl) (fun _ _ _ => .rfl) hinv

omit h hr in
/-- Ids of settled invocations are forgotten. -/
theorem Inv.forget (h : Inv options w)
    (hdone : ∀ id ∈ ids, ∀ r inv, w.lookup id = some r → w.invocations r = some inv →
      inv.status = .done) : Inv options (w.forget ids) where
  history := history_forgot h.history
  answered id := by
    rw [World.lookup_forget, ← h.answered id]
    exact answerOf_forgot
  ran id hid := by
    obtain ⟨hmem, hran⟩ := ranSince_forgot hid
    obtain ⟨r₁, inv₁, hlookup, hinv₁, hrun⟩ := h.ran id hran
    refine ⟨r₁, inv₁, ?_, hinv₁, hrun⟩
    rw [World.lookup_forget, if_neg hmem, hlookup]
  keys p hp := h.keys p (mem_of_mem_filter hp)
  nodup := h.nodup.sublist (filter_sublist.map _)
  count := h.count
  room := h.room
  executing := h.executing
  called := h.called
  waiting := h.waiting
  settled r₁ answer hmem := by
    rcases mem_append.mp hmem with hforgot | hold
    · obtain ⟨_, -, heq⟩ := mem_map.mp hforgot
      cases heq
    · exact h.settled r₁ answer hold
  each r₁ inv₁ hinv₁ := by
    refine (h.each r₁ inv₁ hinv₁).frame (Nat.le_refl _) (fun hs hl => ?_) (fun answer => ?_) .rfl
    · rw [World.lookup_forget, if_neg fun hmem => hs (hdone _ hmem r₁ inv₁ hl hinv₁), hl]
    · refine ⟨fun hmem => ?_, mem_append_right _⟩
      rcases mem_append.mp hmem with hforgot | hold
      · obtain ⟨_, -, heq⟩ := mem_map.mp hforgot
        cases heq
      · exact hold

/-- An invocation settles. -/
theorem Inv.settle (hlive : inv.status ≠ .done)
    (hrequest : inv'.request = inv.request) (hexecution : inv'.execution = inv.execution)
    (hstatus : inv'.status = .done) (hanswer : inv'.answer = some answer)
    (hwaiters : inv'.waiters = [])
    (hnumbered : inv'.events.map (·.sequence) = List.range' 1 inv'.events.length)
    (hterminal : ∀ events terminal, answer = .resolved events terminal → events = inv'.events ∧
      ∃ before last, events = before ++ [last] ∧ last.body = .terminal terminal.outcome ∧
        ∀ event ∈ before, ¬ event.IsTerminal) :
    Inv options ((w.put r inv').note (.settled r answer)) := by
  have hinv := h.each r inv hr
  have hnot : ∀ answer', .settled r answer' ∉ w.log := by
    intro answer' hmem
    rw [← hinv.answers, (hinv.pending hlive).1] at hmem
    cases hmem
  refine h.change hr h.count h.room h.executing (fun _ _ => .rfl) hrequest ⟨hnot, h.history⟩
    (fun _ => rfl) (hexecution ▸ fun hrun => hrun) (fun _ => .inl)
    (fun r₁ hne answer' => ?_) ?_
  · refine ⟨fun hmem => ?_, mem_cons_of_mem _⟩
    rcases mem_cons.mp hmem with hnew | hold
    · exact absurd (Note.settled.inj hnew).1 hne
    · exact hold
  · exact {
      fresh := hinv.fresh
      retained := absurd hstatus
      numbered := hnumbered
      pending := absurd hstatus
      quiet := fun _ => hwaiters
      answers := fun answer' => by
        rw [hanswer]
        constructor
        · rintro heq
          rw [some.inj heq]
          exact mem_cons_self
        · intro hmem
          rcases mem_cons.mp hmem with hnew | hold
          · rw [(Note.settled.inj hnew).2]
          · exact absurd hold (hnot answer')
      terminal := fun events terminal heq => by
        rw [hanswer] at heq
        exact hterminal events terminal (some.inj heq)
      queued := fun hs => by rw [hstatus] at hs; cases hs
      active := fun hs => by rw [hstatus] at hs; cases hs
      ending := fun _ => hstatus
      executing := by
        rw [hexecution]
        exact hinv.executing }

/-- An invocation becomes active where a place is free. -/
theorem Inv.activate
    (hqueued : inv.status = .queued) (hfree : w.activeCount < options.maxConcurrency) :
    Inv options (w.activate r inv) := by
  have hinv := h.each r inv hr
  have hcalled := hinv.queued hqueued
  have hnot : r ∉ w.executing := by
    rw [hinv.executing, hcalled]
    exact fun hfalse => hfalse
  refine h.change hr ?_ ?_ (nodup_cons.mpr ⟨hnot, h.executing⟩) (fun r₁ hne => ?_) rfl h.history
    (fun _ => rfl) (fun hrun => ?_) (fun _ => .inl) (fun _ _ _ => .rfl) ?_
  · rw [h.count, length_cons]
    rfl
  · have hcount := h.count
    rw [length_cons]
    omega
  · simp only [mem_cons, hne, false_or]
  · rw [hcalled] at hrun
    exact hrun.elim
  · exact { hinv with
      retained := fun _ => hinv.retained (by rw [hqueued]; exact fun hs => nomatch hs)
      pending := fun _ => hinv.pending (by rw [hqueued]; exact fun hs => nomatch hs)
      quiet := fun hs => nomatch hs
      queued := fun hs => nomatch hs
      active := fun _ => trivial
      ending := fun hs => nomatch hs
      executing := ⟨fun _ => trivial, fun _ => mem_cons_self⟩ }

/-- A call of `execute` returns, after its invocation settled. -/
theorem Inv.release
    (hdone : inv.status = .done) (hunder : inv.execution.UnderWay) : Inv options (w.release r) := by
  have hinv := h.each r inv hr
  have hmem := hinv.executing.mpr hunder
  have hlength := length_erase_of_mem hmem
  have hpos := length_pos_of_mem hmem
  have hcount := h.count
  have hroom := h.room
  unfold World.release
  rw [hr]
  refine h.change hr (by omega) (by omega) (h.executing.erase r)
    (fun r₁ => mem_erase_of_ne) rfl h.history (fun _ => rfl) (fun _ => trivial)
    (fun _ => .inl) (fun _ _ _ => .rfl) ?_
  exact { hinv with
    queued := fun hs => by rw [hdone] at hs; cases hs
    active := fun hs => by rw [hdone] at hs; cases hs
    ending := fun hs => nomatch hs
    executing := ⟨fun hin => (h.executing.not_mem_erase hin).elim, fun hfalse => hfalse.elim⟩ }

end

/-! ## Settling -/

/-- What an invocation looks like after it settled. -/
structure Ended (inv inv' : Invocation) : Prop where
  done : inv'.status = .done
  execution : inv'.execution = inv.execution

theorem Inv.failInfrastructure (h : Inv options w) (cause : Text) :
    Inv options (w.failInfrastructure r cause) := by
  unfold World.failInfrastructure
  split
  · rename_i inv hr
    split
    · exact h
    · rename_i hlive
      have hinv := h.each r inv hr
      refine Inv.forget (h.settle hr hlive rfl rfl rfl rfl rfl hinv.numbered
        (fun _ _ heq => nomatch heq)) fun id hid r₁ inv₁ hlookup hinv₁ => ?_
      obtain rfl := mem_singleton.mp hid
      cases (hinv.retained hlive).symm.trans hlookup
      cases World.put_self.symm.trans hinv₁
      rfl
  · exact h

theorem failInfrastructure_ended (cause : Text) (hr : w.invocations r = some inv) :
    ∃ inv', (w.failInfrastructure r cause).invocations r = some inv' ∧ Ended inv inv' := by
  unfold World.failInfrastructure
  simp only [hr]
  split
  · rename_i hdone
    exact ⟨inv, hr, hdone, rfl⟩
  · exact ⟨_, World.put_self, rfl, rfl⟩

theorem nextEvent_numbered (h : inv.events.map (·.sequence) = List.range' 1 inv.events.length) :
    (inv.events ++ [w.nextEvent inv body]).map (·.sequence) =
      List.range' 1 (inv.events ++ [w.nextEvent inv body]).length := by
  rw [map_append, h, length_append, length_singleton, range'_concat]
  simp only [map_cons, map_nil, World.nextEvent, Nat.one_mul, Nat.add_comm]

theorem Inv.appendEvent (h : Inv options w) (hbody : ∀ outcome, body ≠ .terminal outcome) :
    Inv options (w.appendEvent options values r body) := by
  unfold World.appendEvent
  split
  · rename_i inv hr
    have hinv := h.each r inv hr
    split
    · exact h
    · rename_i hlive
      dsimp only
      split
      · refine Inv.failInfrastructure ?_ _
        exact h.put hr rfl (fun hrun => hrun) { hinv with }
      · refine h.put hr rfl (fun hrun => hrun) ?_
        have hanswer := (hinv.pending hlive).1
        exact { hinv with
          numbered := nextEvent_numbered hinv.numbered
          pending := fun _ => ⟨hanswer, fun event hevent => by
            rcases mem_append.mp hevent with hold | hnew
            · exact (hinv.pending hlive).2 event hold
            · rintro ⟨outcome, houtcome⟩
              rw [mem_singleton.mp hnew] at houtcome
              exact hbody outcome houtcome⟩
          quiet := fun _ => rfl
          terminal := fun events terminal heq => by
            rw [show inv.answer = none from hanswer] at heq
            cases heq }
  · exact h

theorem appendEvent_started (hr : w.invocations r = some inv)
    (hroom : inv.status ≠ .done → inv.retainedBytes + values.eventBytes (w.nextEvent inv body) ≤
      options.maxInvocationBytes) :
    ∃ inv', (w.appendEvent options values r body).invocations r = some inv' ∧
      inv'.status = inv.status ∧ inv'.execution = inv.execution := by
  unfold World.appendEvent
  simp only [hr]
  split
  · exact ⟨inv, hr, rfl, rfl⟩
  · rename_i hlive
    rw [if_neg (Nat.not_lt.mpr (hroom hlive))]
    exact ⟨_, World.put_self, rfl, rfl⟩

theorem appendEvent_execution (hr : w.invocations r = some inv) :
    ∃ inv', (w.appendEvent options values r body).invocations r = some inv' ∧
      inv'.execution = inv.execution := by
  unfold World.appendEvent
  simp only [hr]
  split
  · exact ⟨inv, hr, rfl⟩
  · split
    · obtain ⟨inv', hinv', hended⟩ := failInfrastructure_ended _ World.put_self
      exact ⟨inv', hinv', hended.execution⟩
    · exact ⟨_, World.put_self, rfl⟩

theorem mem_prunable {count bytes : Nat} {completed : List (InvocationId × Nat)}
    (h : id ∈ prunable options count bytes completed) : id ∈ completed.map (·.1) := by
  induction completed generalizing count bytes with
  | nil => cases h
  | cons p completed ih =>
    unfold prunable at h
    split at h
    · cases h
    · rcases mem_cons.mp h with rfl | htail
      · exact mem_cons_self
      · exact mem_cons_of_mem _ (ih htail)

/-- Only settled invocations are pruned. -/
theorem Inv.pruneCompleted (h : Inv options w) : Inv options (w.pruneCompleted options) := by
  refine h.forget fun id hid r inv hlookup hinv => ?_
  obtain ⟨⟨id', bytes⟩, hp, rfl⟩ := mem_map.mp (mem_prunable hid)
  obtain ⟨⟨id'', r'⟩, hstates, hsome⟩ := mem_filterMap.mp hp
  dsimp only at hsome
  split at hsome
  · rename_i inv' hinv'
    split at hsome
    · rename_i hdone
      obtain ⟨rfl, -⟩ := Prod.mk.inj (some.inj hsome)
      cases (lookup_of_mem h.nodup hstates).symm.trans hlookup
      cases hinv'.symm.trans hinv
      exact hdone
    · cases hsome
  · cases hsome

/-- **`finish` keeps the invariant**, as what it calls does. -/
theorem Inv.finishThen (h : Inv options w) {pump : World → World}
    (hpump : ∀ w, Inv options w → Inv options (pump w)) (terminal : Terminal) :
    Inv options (w.finishThen options values pump r terminal) := by
  unfold World.finishThen
  split
  · rename_i inv hr
    have hinv := h.each r inv hr
    split
    · exact h
    · rename_i hlive
      split
      · exact h.failInfrastructure _
      · refine Inv.pruneCompleted ?_
        have hsettled : Inv options ((w.put r { inv with
            retainedBytes := inv.retainedBytes + values.terminalBytes terminal
            status := .done
            deadlineTimer := inv.deadlineTimer.clear
            events := inv.events ++ [w.nextEvent inv (.terminal terminal.outcome)]
            waiters := []
            answer := some (.resolved
              (inv.events ++ [w.nextEvent inv (.terminal terminal.outcome)]) terminal) }).note
                (.settled r (.resolved
                  (inv.events ++ [w.nextEvent inv (.terminal terminal.outcome)]) terminal))) := by
          refine h.settle hr hlive rfl rfl rfl rfl rfl (nextEvent_numbered hinv.numbered)
            fun events terminal' heq => ?_
          obtain ⟨rfl, rfl⟩ := Answer.resolved.inj heq
          exact ⟨rfl, inv.events, _, rfl, rfl, (hinv.pending hlive).2⟩
        split
        · exact hsettled
        · exact hpump _ hsettled
  · exact h

theorem finishThen_ended {pump : World → World} (terminal : Terminal)
    (hr : w.invocations r = some inv) (hq : inv.status ≠ .queued) :
    ∃ inv', (w.finishThen options values pump r terminal).invocations r = some inv' ∧
      Ended inv inv' := by
  unfold World.finishThen
  simp only [hr]
  split
  · rename_i hdone
    exact ⟨inv, hr, hdone, rfl⟩
  · rename_i hlive
    split
    · exact failInfrastructure_ended _ hr
    · have hactive : inv.status = .active := by
        cases hs : inv.status with
        | queued => exact absurd hs hq
        | active => rfl
        | done => exact absurd hs hlive
      rw [if_pos hactive]
      exact ⟨_, World.put_self, rfl, rfl⟩

theorem Inv.abort (h : Inv options w) : Inv options (w.abort r) := by
  unfold World.abort
  split
  · rename_i inv hr
    exact h.put hr rfl (fun hrun => hrun) { h.each r inv hr with }
  · exact h

theorem abort_self (hr : w.invocations r = some inv) :
    (w.abort r).invocations r = some { inv with aborted := true } := by
  unfold World.abort
  rw [hr]
  exact World.put_self

theorem Inv.finishTimedOutThen (h : Inv options w) {pump : World → World}
    (hpump : ∀ w, Inv options w → Inv options (pump w)) :
    Inv options (w.finishTimedOutThen options values pump r) := by
  unfold World.finishTimedOutThen
  split
  · exact h.abort.finishThen hpump _
  · exact h

theorem finishTimedOutThen_ended {pump : World → World} (hr : w.invocations r = some inv)
    (hq : inv.status ≠ .queued) :
    ∃ inv', (w.finishTimedOutThen options values pump r).invocations r = some inv' ∧
      Ended inv inv' := by
  unfold World.finishTimedOutThen
  simp only [hr]
  obtain ⟨inv', hinv', hended⟩ := finishThen_ended _ (abort_self hr) hq
  exact ⟨inv', hinv', hended.done, hended.execution⟩

/-! ## The queue -/

/-- **The loop of `pump` keeps the invariant.** -/
theorem Inv.pumpLoop (n : Nat) (h : Inv options w) : Inv options (pumpLoop options values n w) := by
  induction n generalizing w with
  | zero => exact h
  | succ n ih =>
    unfold Runtime.pumpLoop
    split
    · rename_i hfree
      split
      · exact h
      · rename_i r queue hqueue
        have hw : Inv options { w with queue } := { h with
          waiting := fun r₁ hmem => h.waiting r₁ (hqueue ▸ mem_cons_of_mem _ hmem)
          each := fun r₁ inv₁ hr₁ => (h.each r₁ inv₁ hr₁).frame (Nat.le_refl _) (fun _ hl => hl)
            (fun _ => .rfl) .rfl }
        dsimp only
        split
        · rename_i inv hr
          split
          · exact ih hw
          · rename_i hqueued
            have hactive := hw.activate hr (Decidable.not_not.mp hqueued) hfree
            split
            · -- its deadline has passed: it settles in its place, and gives it back
              have hself : (World.activate { w with queue } r inv).invocations r =
                  some { inv with status := .active, execution := .directory } := World.put_self
              obtain ⟨inv', hinv', hended⟩ :=
                @finishTimedOutThen_ended options values _ r _ (fun w => w) hself
                  (fun heq => nomatch heq)
              refine ih ((hactive.finishTimedOutThen fun _ h' => h').release hinv' hended.done ?_)
              rw [hended.execution]
              trivial
            · exact ih hactive
        · exact ih hw
    · exact h

theorem Inv.pump (h : Inv options w) : Inv options (w.pump options values) := h.pumpLoop _

theorem Inv.finish (h : Inv options w) (terminal : Terminal) :
    Inv options (w.finish options values r terminal) :=
  h.finishThen (fun _ h' => h'.pump) terminal

theorem Inv.finishTimedOut (h : Inv options w) : Inv options (w.finishTimedOut options values r) :=
  h.finishTimedOutThen fun _ h' => h'.pump

/-! ## A new invocation -/

/-- Where a new invocation is retained. -/
def World.retain (w : World) (inv : Invocation) (log : List Note) : World :=
  { w.put w.nextRef inv with
    nextRef := w.nextRef + 1
    states := w.states ++ [(inv.request.invocationId, w.nextRef)]
    queue := w.queue ++ [w.nextRef]
    log := .answered inv.request.invocationId w.nextRef :: log }

theorem lookup_retain (hid : w.lookup inv.request.invocationId = none) :
    (w.retain inv log).lookup id =
      if id = inv.request.invocationId then some w.nextRef else w.lookup id := by
  have happend : (w.retain inv log).lookup id =
      (w.lookup id).or ([(inv.request.invocationId, w.nextRef)].lookup id) := lookup_append
  rw [happend, lookup_singleton]
  by_cases heq : id = inv.request.invocationId
  · rw [heq, hid]
    simp
  · rw [if_neg heq, if_neg (by simpa using heq), or_none]

section

variable (h : Inv options w)
include h

theorem fresh_none : w.invocations w.nextRef = none := by
  cases hr : w.invocations w.nextRef with
  | none => rfl
  | some inv => exact absurd (h.each _ inv hr).fresh (Nat.lt_irrefl _)

/-- **A new invocation is retained under its id.** -/
theorem Inv.retain (hid : w.lookup inv.request.invocationId = none)
    (hhistory : History options log) (hanswered : ∀ id, answerOf log id = w.lookup id)
    (hran : ∀ id, RanSince log id → RanSince w.log id)
    (hsettled : ∀ r ≠ w.nextRef, ∀ answer, .settled r answer ∈ log ↔ .settled r answer ∈ w.log)
    (hinv : InvocationInv (w.retain inv log) w.nextRef inv) : Inv options (w.retain inv log) := by
  have hother : ∀ r inv₁, w.invocations r = some inv₁ → r ≠ w.nextRef := by
    rintro r inv₁ hr rfl
    rw [fresh_none h] at hr
    cases hr
  refine {
    __ := h
    history := ⟨fun r' hr' => ?_, hhistory⟩
    answered := fun id => ?_
    ran := fun id hid' => ?_
    keys := fun p hp => ?_
    nodup := ?_
    called := fun r hmem => by
      obtain ⟨inv₁, hr⟩ := h.called r hmem
      exact ⟨inv₁, (World.put_other (hother r inv₁ hr)).trans hr⟩
    waiting := fun r hmem => by
      rcases mem_append.mp hmem with hold | hnew
      · obtain ⟨inv₁, hr⟩ := h.waiting r hold
        exact ⟨inv₁, (World.put_other (hother r inv₁ hr)).trans hr⟩
      · exact ⟨inv, mem_singleton.mp hnew ▸ World.put_self⟩
    settled := fun r answer hmem => ?_
    each := fun r inv₁ hr => ?_ }
  · rw [hanswered, hid] at hr'
    cases hr'
  · rw [lookup_retain hid]
    show answerOf (.answered inv.request.invocationId w.nextRef :: log) id = _
    rw [answerOf, hanswered]
    by_cases heq : id = inv.request.invocationId
    · rw [if_pos heq, if_pos heq.symm]
    · rw [if_neg heq, if_neg (Ne.symm heq)]
  · obtain ⟨r, inv₁, hlookup, hr, hrun⟩ := h.ran id (hran id hid')
    refine ⟨r, inv₁, ?_, (World.put_other (hother r inv₁ hr)).trans hr, hrun⟩
    rw [lookup_retain hid, if_neg (fun heq => ?_), hlookup]
    rw [heq, hid] at hlookup
    cases hlookup
  · rcases mem_append.mp hp with hold | hnew
    · obtain ⟨inv₁, hr, hkey⟩ := h.keys p hold
      exact ⟨inv₁, (World.put_other (hother _ inv₁ hr)).trans hr, hkey⟩
    · rw [mem_singleton.mp hnew]
      exact ⟨inv, World.put_self, rfl⟩
  · show ((w.states ++ [(inv.request.invocationId, w.nextRef)]).map (·.1)).Nodup
    rw [map_append, nodup_append]
    refine ⟨h.nodup, (nodup_cons.mpr ⟨not_mem_nil, nodup_nil⟩), fun id hmem id' hmem' heq => ?_⟩
    obtain ⟨⟨id'', r⟩, hp, rfl⟩ := mem_map.mp hmem
    rw [map_singleton, mem_singleton] at hmem'
    have hlookup := lookup_of_mem h.nodup hp
    rw [show id'' = inv.request.invocationId from heq.trans hmem', hid] at hlookup
    cases hlookup
  · by_cases heq : r = w.nextRef
    · exact ⟨inv, heq ▸ World.put_self⟩
    · obtain ⟨inv₁, hr⟩ := h.settled r answer
        ((hsettled r heq answer).mp ((mem_cons.mp hmem).resolve_left fun hn => nomatch hn))
      exact ⟨inv₁, (World.put_other heq).trans hr⟩
  · by_cases heq : r = w.nextRef
    · subst heq
      cases World.put_self.symm.trans hr
      exact hinv
    · refine (h.each r inv₁ ((World.put_other heq).symm.trans hr)).frame (Nat.le_succ _)
        (fun _ hl => ?_) (fun answer => ?_) .rfl
      · rw [lookup_retain hid, if_neg (fun heq => ?_), hl]
        rw [heq, hid] at hl
        cases hl
      · rw [← hsettled r heq answer]
        exact ⟨fun hmem => (mem_cons.mp hmem).resolve_left (fun hn => nomatch hn),
          mem_cons_of_mem _⟩

theorem Inv.scheduleDeadline : Inv options (w.scheduleDeadline r) := by
  unfold World.scheduleDeadline
  split
  · rename_i inv hr
    exact h.put hr rfl (fun hrun => hrun) { h.each r inv hr with }
  · exact h

theorem fresh_not_settled : .settled w.nextRef answer ∉ w.log := by
  intro hmem
  obtain ⟨inv, hr⟩ := h.settled _ _ hmem
  rw [fresh_none h] at hr
  cases hr

theorem fresh_not_executing : w.nextRef ∉ w.executing := by
  intro hmem
  obtain ⟨inv, hr⟩ := h.called _ hmem
  rw [fresh_none h] at hr
  cases hr

omit h in
theorem put_put : (w.put r inv).put r inv' = w.put r inv' := by
  unfold World.put
  rw [Function.update_idem]

theorem Inv.accept (hid : w.lookup request.invocationId = none) : Inv options
      (w.accept options values request) := by
  have hexecuting := fresh_not_executing h
  have hlookup : ∀ inv' log, inv'.request = request →
      (w.retain inv' log).lookup inv'.request.invocationId = some w.nextRef := by
    intro inv' log hrequest
    rw [lookup_retain (by rw [hrequest]; exact hid), if_pos rfl]
  unfold World.accept World.appendEvent
  simp only [World.put_self]
  rw [if_neg (fun hs => nomatch hs)]
  split
  · -- the event has no room: the invocation settles before it is retained
    unfold World.failInfrastructure
    simp only [World.put_self]
    rw [if_neg (fun hs => nomatch hs), put_put, put_put]
    have hkeep : w.states.filter (·.1 ∉ [request.invocationId]) = w.states := by
      refine filter_eq_self.mpr fun p hp => ?_
      have hne : p.1 ≠ request.invocationId := fun heq => by
        have hl := lookup_of_mem h.nodup (show (request.invocationId, p.2) ∈ w.states from heq ▸ hp)
        rw [hid] at hl
        cases hl
      simpa using hne
    let cause := "Supervisor invocation events exceed their memory limit".toList
    have hretain : Inv options (w.retain {
        request
        retainedBytes := values.requestBytes request +
          values.eventBytes (World.nextEvent { w with nextRef := w.nextRef + 1 }
            { request, retainedBytes := values.requestBytes request } .accepted)
        answer := some (.rejected cause), status := .done, aborted := true }
        (.forgot request.invocationId :: .settled w.nextRef (.rejected cause) :: w.log)) := by
      refine h.retain hid ⟨trivial, fun answer => fresh_not_settled h, h.history⟩ (fun id => ?_)
        (fun id hran => hran.2) (fun r hne answer => ?_) ?_
      · show (if request.invocationId = id then none else answerOf w.log id) = w.lookup id
        rw [h.answered]
        by_cases heq : request.invocationId = id
        · rw [if_pos heq, ← heq, hid]
        · rw [if_neg heq]
      · simp only [mem_cons, reduceCtorEq, Note.settled.injEq, hne, false_and, false_or]
      · exact {
          fresh := Nat.lt_succ_self _
          retained := absurd rfl
          numbered := rfl
          pending := absurd rfl
          quiet := fun _ => rfl
          answers := fun answer => by
            have hnot : Note.settled w.nextRef answer ∉ w.log := fresh_not_settled h
            simp [World.retain, hnot, eq_comm]
          terminal := fun _ _ heq => nomatch heq
          queued := fun hs => nomatch hs
          active := fun hs => nomatch hs
          ending := fun hs => nomatch hs
          executing := ⟨fun hmem => absurd hmem hexecuting, fun hfalse => hfalse.elim⟩ }
    simp only [World.note, World.forget, World.put, hkeep]
    exact hretain
  · have hretain : Inv options (w.retain {
        request
        retainedBytes := values.requestBytes request +
          values.eventBytes (World.nextEvent { w with nextRef := w.nextRef + 1 }
            { request, retainedBytes := values.requestBytes request } .accepted)
        events := [World.nextEvent { w with nextRef := w.nextRef + 1 }
          { request, retainedBytes := values.requestBytes request } .accepted] } w.log) := by
      refine h.retain hid h.history h.answered (fun _ hran => hran) (fun _ _ _ => .rfl) ?_
      exact {
        fresh := Nat.lt_succ_self _
        retained := fun _ => hlookup _ _ rfl
        numbered := rfl
        pending := fun _ => ⟨rfl, fun event hevent => by
          rw [mem_singleton.mp hevent]
          rintro ⟨outcome, houtcome⟩
          cases houtcome⟩
        quiet := fun hs => nomatch hs
        answers := fun answer => by
          have hnot : Note.settled w.nextRef answer ∉ w.log := fresh_not_settled h
          simp [World.retain, hnot]
        terminal := fun _ _ heq => nomatch heq
        queued := fun _ => rfl
        active := fun hs => nomatch hs
        ending := fun hs => nomatch hs
        executing := ⟨fun hmem => absurd hmem hexecuting, fun hfalse => hfalse.elim⟩ }
    rw [put_put]
    exact hretain

/-- Something is noted that is about no invocation's state. -/
theorem Inv.noted {note : Note} (hfits : Fits options w.log note)
    (hanswered : ∀ id, answerOf (note :: w.log) id = w.lookup id)
    (hran : ∀ id, RanSince (note :: w.log) id → RanSince w.log id)
    (hsettled : ∀ r answer, note ≠ .settled r answer) : Inv options (w.note note) :=
  have hlog : ∀ r answer, .settled r answer ∈ note :: w.log ↔ .settled r answer ∈ w.log :=
    fun r answer => ⟨fun hmem => (mem_cons.mp hmem).resolve_left (hsettled r answer).symm,
      mem_cons_of_mem _⟩
  { h with
    history := ⟨hfits, h.history⟩
    answered := hanswered
    ran := fun id hid => h.ran id (hran id hid)
    settled := fun r answer hmem => h.settled r answer ((hlog r answer).mp hmem)
    each := fun r inv hr =>
      (h.each r inv hr).frame (Nat.le_refl _) (fun _ hl => hl) (hlog r) .rfl }

end

/-- Where nobody in the queue has settled, all of them wait. -/
theorem waiting_eq
    (hqueue : ∀ r ∈ w.queue, ∀ inv, w.invocations r = some inv → inv.status = .queued) :
    w.waiting = w.queue.filterMap w.invocations := by
  refine filter_eq_self.mpr fun inv hinv => ?_
  obtain ⟨r, hr, hsome⟩ := mem_filterMap.mp hinv
  simpa using hqueue r hr inv hsome

theorem queued_length (h : ∀ r ∈ w.queue, ∃ inv, w.invocations r = some inv) :
    (w.queue.filterMap w.invocations).length = w.queue.length := by
  generalize w.queue = queue at h
  induction queue with
  | nil => rfl
  | cons r queue ih =>
    obtain ⟨inv, hr⟩ := h r mem_cons_self
    rw [filterMap_cons_some hr, length_cons, length_cons,
      ih fun r' hr' => h r' (mem_cons_of_mem _ hr')]

theorem Inv.invoke (h : Inv options w) (hok : Careful options values w (.invoke request)) :
    Inv options (w.invoke options values request).2 := by
  unfold World.invoke
  split
  · exact h
  · split
    · rename_i r hlookup
      split
      · split
        · exact h
        · refine h.noted (fun r' hr' => ?_) (fun id => ?_) (fun _ hran => hran)
            (fun _ _ heq => nomatch heq)
          · rw [h.answered, hlookup] at hr'
            exact (some.inj hr').symm
          · rw [answerOf, h.answered]
            split
            · rename_i heq
              rw [← heq, hlookup]
            · rfl
      · exact h
    · rename_i hlookup
      have hwaiting := waiting_eq (hok hlookup)
      dsimp only
      split
      · rename_i hfull
        refine h.noted ?_ h.answered (fun _ hran => hran) (fun _ _ heq => nomatch heq)
        show options.maxQueuedInvocations ≤ w.waiting.length
        rw [hwaiting, queued_length h.waiting]
        exact hfull
      · split
        · rename_i hfull
          refine h.noted ?_ h.answered (fun _ hran => hran) (fun _ _ heq => nomatch heq)
          show options.maxQueuedBytes < bytesOf w.waiting + values.requestBytes request
          rw [hwaiting]
          exact hfull
        · split
          · exact h
          · split
            · exact h
            · exact Inv.pump (Inv.scheduleDeadline (h.accept hlookup))

/-! ## Steps -/

theorem Inv.cancel (h : Inv options w) : Inv options (w.cancel options values id) := by
  unfold World.cancel
  split
  · split
    · split
      · exact h
      · exact h.abort.finish _
    · exact h
  · exact h

section

variable (h : Inv options w) (hr : w.invocations r = some inv)
include h hr

theorem Inv.setWaiters {waiters : List WaiterId}
    (hquiet : inv.status = .done → waiters = []) : Inv options (w.put r { inv with waiters }) :=
  h.put hr rfl (fun hrun => hrun) { h.each r inv hr with quiet := hquiet }

omit h hr in
theorem Inv.poll (h : Inv options w) {afterSequence : Nat} {waiter : WaiterId} :
    Inv options (w.poll id afterSequence waiter) := by
  unfold World.poll
  split
  · split
    · rename_i inv hr
      split
      · exact h
      · rename_i hwait
        exact h.setWaiters hr fun hdone => absurd (.inl hdone) hwait
    · exact h
  · exact h

/-- `execute` returns after its invocation settled, and pumps. -/
theorem Inv.returned (hdone : inv.status = .done) (hunder : inv.execution.UnderWay) :
    Inv options ((w.release r).pump options values) :=
  (h.release hr hdone hunder).pump

/-- **A worker is created for an invocation that has not settled**, and has not run before. -/
theorem Inv.run (hlive : inv.status ≠ .done) (hdirectory : inv.execution = .directory) :
    Inv options ((w.put r { inv with execution := .working }).note
      (.ran inv.request.invocationId r)) := by
  have hinv := h.each r inv hr
  have hlookup := hinv.retained hlive
  refine h.change hr h.count h.room h.executing (fun _ _ => .rfl) rfl
    ⟨⟨fun hran => ?_, fun answer hmem => ?_⟩,
    h.history⟩ (fun _ => rfl) (fun _ => trivial) (fun id hid => ?_) (fun r₁ _ answer => ?_) ?_
  · obtain ⟨r₁, inv₁, hlookup₁, hr₁, hrun⟩ := h.ran _ hran
    cases hlookup.symm.trans hlookup₁
    cases hr.symm.trans hr₁
    rw [hdirectory] at hrun
    exact hrun
  · have hnone := (hinv.answers answer).mpr hmem
    rw [(hinv.pending hlive).1] at hnone
    cases hnone
  · rcases hid with rfl | hold
    · exact .inr ⟨hlookup, trivial⟩
    · exact .inl hold
  · exact ⟨fun hmem => (mem_cons.mp hmem).resolve_left (fun hn => nomatch hn), mem_cons_of_mem _⟩
  · have hmem : r ∈ w.executing := by
      rw [hinv.executing, hdirectory]
      trivial
    exact { hinv with
      answers := fun answer => (hinv.answers answer).trans
        ⟨mem_cons_of_mem _, fun hmem => (mem_cons.mp hmem).resolve_left (fun hn => nomatch hn)⟩
      queued := fun hs => by
        have hcalled := hinv.queued hs
        rw [hdirectory] at hcalled
        cases hcalled
      active := fun _ => trivial
      ending := fun hs => nomatch hs
      executing := ⟨fun _ => trivial, fun _ => hmem⟩ }

theorem Inv.prepared (hdirectory : inv.execution = .directory) {prepared : Prepared}
    (hok : Careful options values w (.prepare r prepared)) :
    Inv options (w.prepared options values r inv prepared) := by
  have hunder : ∀ inv' : Invocation, inv'.execution = inv.execution → inv'.execution.UnderWay := by
    intro inv' heq
    rw [heq, hdirectory]
    trivial
  have hstarted : ∀ outcome, EventBody.started ≠ .terminal outcome := fun _ heq => nomatch heq
  unfold World.prepared
  split
  · rename_i error
    obtain ⟨inv', hr', hended⟩ := failInfrastructure_ended error hr
    exact (h.failInfrastructure error).returned hr' hended.done (hunder inv' hended.execution)
  · rename_i error
    split
    · rename_i hdone
      exact h.returned hr hdone (hunder inv rfl)
    · obtain ⟨inv', hr', hexecution⟩ := @appendEvent_execution options values w r inv .started hr
      obtain ⟨inv'', hr'', hended⟩ := failInfrastructure_ended error hr'
      exact ((h.appendEvent hstarted).failInfrastructure error).returned hr''
        hended.done (hunder inv'' (hended.execution.trans hexecution))
  · split
    · rename_i hdone
      exact h.returned hr hdone (hunder inv rfl)
    · rename_i hlive
      obtain ⟨inv', hr', hstatus, hexecution⟩ :=
        @appendEvent_started options values w r inv .started hr (hok inv hr)
      simp only [hr']
      exact (h.appendEvent hstarted).run hr' (by rwa [hstatus])
        (hexecution.trans hdirectory)

theorem Inv.workerAnswer (hworking : inv.execution = .working) (result : Except Text Terminal) :
    Inv options (w.answered options values r result) := by
  have hqueued : inv.status ≠ .queued := fun hs => by
    have hcalled := (h.each r inv hr).queued hs
    rw [hworking] at hcalled
    cases hcalled
  have hterminating : ∀ (w' : World) (inv' : Invocation), Inv options w' →
      w'.invocations r = some inv' → Ended inv inv' →
        Inv options (w'.put r { inv' with execution := .terminating }) := by
    intro w' inv' h' hr' hended
    have hinv := h'.each r inv' hr'
    have hmem : r ∈ w'.executing := by
      rw [hinv.executing, hended.execution, hworking]
      trivial
    refine h'.put hr' rfl (fun _ => trivial) { hinv with
      queued := fun hs => by rw [hended.done] at hs; cases hs
      active := fun _ => trivial
      ending := fun _ => hended.done
      executing := ⟨fun _ => trivial, fun _ => hmem⟩ }
  unfold World.answered
  cases result with
  | ok terminal =>
    obtain ⟨inv', hr', hended⟩ :=
      @finishThen_ended options values w r inv (World.pump options values) terminal hr hqueued
    simp only [World.finish, hr']
    exact hterminating _ inv' (h.finish terminal) hr' hended
  | error error =>
    obtain ⟨inv', hr', hended⟩ := failInfrastructure_ended error hr
    simp only [hr']
    exact hterminating _ inv' (h.failInfrastructure error) hr' hended

theorem Inv.timer {timer : Timer} : Inv options (w.put r { inv with deadlineTimer := timer }) :=
  h.put hr rfl (fun hrun => hrun) { h.each r inv hr with }

end

theorem inv_start : Inv options start where
  history := trivial
  answered _ := rfl
  ran _ hid := hid.elim
  keys _ hp := nomatch hp
  nodup := nodup_nil
  count := rfl
  room := Nat.zero_le _
  executing := nodup_nil
  called _ hmem := nomatch hmem
  waiting _ hmem := nomatch hmem
  settled _ _ hmem := nomatch hmem
  each _ _ hr := nomatch hr

theorem inv_step {action : Action} (h : Inv options w) (hok : Careful options values w action)
    (hstep : step options values w action = some w') : Inv options w' := by
  cases action with
  | invoke request => exact some.inj hstep ▸ h.invoke hok
  | cancel id => exact some.inj hstep ▸ h.cancel
  | poll id afterSequence waiter => exact some.inj hstep ▸ h.poll
  | wake r waiter =>
    obtain ⟨inv, hr, rfl⟩ := map_eq_some_iff.mp hstep
    refine h.setWaiters hr fun hdone => ?_
    rw [(h.each r inv hr).quiet hdone]
    rfl
  | prepare r prepared =>
    unfold step at hstep
    dsimp only at hstep
    split at hstep
    · rename_i inv hr
      split at hstep
      · rename_i hdirectory
        exact some.inj hstep ▸ h.prepared hr hdirectory hok
      · cases hstep
    · cases hstep
  | event r event =>
    have hevent : Inv options (w.appendEvent options values r (.worker event)) :=
      h.appendEvent fun _ heq => nomatch heq
    unfold step at hstep
    dsimp only at hstep
    split at hstep
    · split at hstep
      · exact some.inj hstep ▸ hevent
      · exact some.inj hstep ▸ hevent
      · exact some.inj hstep ▸ hevent
      · cases hstep
    · cases hstep
  | answer r result =>
    unfold step at hstep
    dsimp only at hstep
    split at hstep
    · rename_i inv hr
      split at hstep
      · rename_i hworking
        exact some.inj hstep ▸ h.workerAnswer hr hworking result
      · cases hstep
    · cases hstep
  | terminated r =>
    unfold step at hstep
    dsimp only at hstep
    split at hstep
    · rename_i inv hr
      split at hstep
      · rename_i hterminating
        have hdone := (h.each r inv hr).ending hterminating
        refine some.inj hstep ▸ h.returned hr hdone ?_
        rw [hterminating]
        trivial
      · cases hstep
    · cases hstep
  | timer r =>
    unfold step at hstep
    dsimp only at hstep
    split at hstep
    · rename_i inv hr
      split at hstep
      · cases hstep
      · exact some.inj hstep ▸ (h.timer hr).finishTimedOut
      · split at hstep
        · exact some.inj hstep ▸ (h.timer hr).finishTimedOut
        · exact some.inj hstep ▸ (h.timer hr).scheduleDeadline
    · cases hstep
  | tick now =>
    cases hstep
    exact { h with
      each := fun r inv hr => (h.each r inv hr).frame (Nat.le_refl _) (fun _ hl => hl)
        (fun _ => .rfl) .rfl }

/-! ## Runs -/

theorem Inv.gives (h : Inv options w) : w.Sound options where
  history := h.history
  answers r inv hr := (h.each r inv hr).answers
  numbered r inv hr := (h.each r inv hr).numbered
  terminal r inv events terminal hr := (h.each r inv hr).terminal events terminal
  active refs hnodup hactive := by
    refine Nat.le_trans ?_ h.room
    refine (subperm_of_subset hnodup fun r hr => ?_).length_le
    obtain ⟨inv, hinv, hstatus⟩ := hactive r hr
    exact (h.each r inv hinv).executing.mpr ((h.each r inv hinv).active hstatus)
  idle hidle := by
    refine ⟨?_, fun r inv hr => (h.each r inv hr).quiet (hidle r inv hr).1⟩
    have hempty : w.executing = [] := by
      refine eq_nil_iff_forall_not_mem.mpr fun r hmem => ?_
      obtain ⟨inv, hr⟩ := h.called r hmem
      exact (hidle r inv hr).2 ((h.each r inv hr).executing.mp hmem)
    rw [h.count, hempty]
    rfl

/-- **A supervisor keeps its promises in every careful run.** -/
theorem supervisor_sound (h : Reach (step options values) (Careful options values) start w) :
    w.Sound options :=
  (h.invariant inv_start fun _ _ _ => inv_step).gives

/-- One place to run in, and one to wait in. -/
def oneEach : Options where
  maxConcurrency := 1
  positive := Nat.le_refl 1
  maxQueuedInvocations := 1

/-- Every JSON text has one byte. -/
def oneByte : Values where
  requestBytes _ := 1
  eventBytes _ := 1
  terminalBytes _ := 1
  fingerprint request := request.body
  insideRoot _ := true

def requestOf (id : InvocationId) : Request where
  invocationId := id
  artifact := { deploymentArtifactId := [], artifactDigest := [], transformVersion := [], runtimeVersion := [] }
  attempt := 1
  deadlineAt := none
  modulePath := "main.js".toList
  body := "{}".toList

/-- An invocation is accepted, and its worker is created. -/
theorem supervisor_sound_started : ∃ w : World,
    w.log = [.ran 0 0, .answered 0 0] ∧ w.activeCount = 1 ∧ w.Sound oneEach := by
  have hfirst : Reach (step oneEach oneByte) (Careful oneEach oneByte) start
      (start.invoke oneEach oneByte (requestOf 0)).2 := by
    have hok : Careful oneEach oneByte start (.invoke (requestOf 0)) := fun _ _ hr => nomatch hr
    exact .tail .init hok rfl
  have hroom : ((start.invoke oneEach oneByte (requestOf 0)).2.invocations 0).all (fun inv =>
      inv.retainedBytes + 1 ≤ oneEach.maxInvocationBytes) = true := by decide +kernel
  have hstep : ((step oneEach oneByte (start.invoke oneEach oneByte (requestOf 0)).2
      (.prepare 0 .worker)).map fun w => (w.log, w.activeCount)) =
        some ([.ran 0 0, .answered 0 0], 1) := by decide +kernel
  obtain ⟨w, hw, hshows⟩ := map_eq_some_iff.mp hstep
  obtain ⟨hlog, hcount⟩ := Prod.mk.inj hshows
  have hok : Careful oneEach oneByte (start.invoke oneEach oneByte (requestOf 0)).2
      (.prepare 0 .worker) := by
    intro inv hr _
    rw [hr] at hroom
    exact of_decide_eq_true hroom
  exact ⟨w, hlog, hcount, supervisor_sound (.tail hfirst hok hw)⟩

/-- **An `invoke` is refused for a full queue where nobody waits**: what is canceled in the queue
stays in it. -/
theorem refused_waiting : ¬∀ w, Reach (step oneEach oneByte) anyEvent start w → w.Sound
    oneEach := by
  intro hclaim
  have hrun : (exec (step oneEach oneByte) start [.invoke (requestOf 0), .invoke (requestOf 1),
      .cancel 1, .invoke (requestOf 2)]).map (fun w => w.log.head?) =
        some (some (.refusedNumber 0)) := by decide +kernel
  obtain ⟨w, hw, hhead⟩ := map_eq_some_iff.mp hrun
  have hhistory := (hclaim w (reach_of_exec hw)).history
  obtain ⟨log, hlog⟩ := List.head?_eq_some_iff.mp hhead
  rw [hlog] at hhistory
  have hfull : oneEach.maxQueuedInvocations ≤ 0 := hhistory.1
  exact absurd hfull (by decide)

end Catamorphic.Runtime
