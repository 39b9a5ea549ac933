import Catamorphic.Execution.RunGrowth

/-!
# A signal is delivered once, and none is missed

Most operations only cancel open pauses and discard buffered signals. The four that work on
pauses and signals do it under the run's lock: a pause takes the first signal of its name that
waits where there is one, and a signal finds the open pause of its name. So no pause stays open
beside a signal that it waits for, and each name's signals are taken in their order.
-/

namespace Catamorphic.Execution.Coordinator

open Runs List

/-- The pauses that some signals ended, with the signals' numbers, in the order of their ends. -/
def World.endedBy (w : World) (p : Signal → Bool) : List (PauseId × Nat) :=
  w.resolved.filterMap fun entry =>
    match entry.2 with
    | .signal sequence =>
      if w.signals.any fun signal => signal.sequence = sequence && p signal then
        some (entry.1, sequence)
      else none
    | _ => none

/-- The pauses that the signal of a key resumed. -/
def World.resumedBy (w : World) (runId : RunId) (key : Text) : List PauseId :=
  (w.endedBy fun signal => signal.runId = runId && signal.idempotencyKey = key).map Prod.fst

/-- The signals of a name that pauses consumed. -/
def World.consumed (w : World) (runId : RunId) (name : Text) : List Nat :=
  (w.endedBy fun signal => signal.runId = runId && signal.signalName = name).map Prod.snd

/-- What operations that deliver nothing do to pauses and signals. -/
inductive Quiet : World → World → Prop
  | same {w w' : World} (hpauses : w'.pauses = w.pauses) (hsignals : w'.signals = w.signals)
      (hresolved : w'.resolved = w.resolved) (hpause : w'.nextPause = w.nextPause)
      (hsequence : w'.nextSequence = w.nextSequence) : Quiet w w'
  | discard (w : World) (runId : RunId) : Quiet w (w.discardSignals runId)
  | cancel (w : World) (which : Pause → Bool) : Quiet w (w.cancelPauses which)
  | trans {w w' w'' : World} : Quiet w w' → Quiet w' w'' → Quiet w w''

theorem Quiet.refl (w : World) : Quiet w w := .same rfl rfl rfl rfl rfl

theorem Moves.quiet {w w' : World} (h : Moves w w') : Quiet w w' := by
  induction h with
  | same h =>
    exact .same (congrArg World.pauses h).symm (congrArg World.signals h).symm
      (congrArg World.resolved h).symm (congrArg World.nextPause h).symm
      (congrArg World.nextSequence h).symm
  | setRun | insertRun => exact .same rfl rfl rfl rfl rfl
  | discard w r => exact .discard w r
  | cancel w which => exact .cancel w which
  | trans _ _ ih ih' => exact ih.trans ih'

theorem quiet_updateRun (w : World) (runId : RunId) (statuses : RunStatus → Bool)
    (set : Run → Run) : Quiet w (w.updateRun runId statuses set) := by
  refine updateRun_cases (.refl w) fun run _ _ => ?_
  have hset : Quiet w (w.setRun runId (set run)) := .same rfl rfl rfl rfl rfl
  rw [World.setStatus]
  split
  · exact hset.trans (.discard _ runId)
  · exact hset

theorem quiet_finish {result : World × Option Ended} {w : World}
    (h : World.finish result = some w) : Quiet result.1 w :=
  (Moves.finishParents h).quiet

/-! ## What holds of pauses and signals -/

/-- Signals of one name, to one run. -/
def Signal.Alike (signal other : Signal) : Prop :=
  signal.runId = other.runId ∧ signal.signalName = other.signalName

/-- The later of two ends consumed the later of two alike signals. -/
def InOrder (signals : List Signal) (earlier later : PauseId × Resolution) : Prop :=
  ∀ signal ∈ signals, ∀ other ∈ signals, signal.Alike other →
    earlier.2 = .signal signal.sequence → later.2 = .signal other.sequence →
    signal.sequence < other.sequence

/-- What holds of them, but for open pauses in `E` that no signal was looked for yet. -/
structure Delivery (E : PauseId → Prop) (w : World) : Prop where
  pauseIds : (w.pauses.map Pause.id).Nodup
  pauseIds_lt : ∀ pause ∈ w.pauses, pause.id < w.nextPause
  sequences : w.signals.Pairwise fun signal later => signal.sequence < later.sequence
  sequences_lt : ∀ signal ∈ w.signals, signal.sequence < w.nextSequence
  keys : ∀ signal ∈ w.signals, ∀ other ∈ w.signals, signal.runId = other.runId →
    signal.idempotencyKey = other.idempotencyKey → signal.sequence = other.sequence
  resolvedOnce : (w.resolved.map Prod.fst).Nodup
  resolved_lt : ∀ entry ∈ w.resolved, entry.1 < w.nextPause
  /-- A pause is open until it has an end. -/
  open_iff : ∀ pause ∈ w.pauses,
    pause.status = .opened ↔ pause.id ∉ w.resolved.map Prod.fst
  /-- The signal that ended a pause is one that was resumed. -/
  taken : ∀ pauseId sequence, (pauseId, Resolution.signal sequence) ∈ w.resolved →
    ∃ signal ∈ w.signals, signal.sequence = sequence ∧ signal.status = .resumed
  order : w.resolved.Pairwise (InOrder w.signals)
  /-- No signal is resumed while an earlier one of its name waits. -/
  first : ∀ signal ∈ w.signals, ∀ later ∈ w.signals, signal.Alike later →
    signal.sequence < later.sequence → signal.status = .buffered → later.status ≠ .resumed
  openNames : ∀ pause ∈ w.pauses, ∀ other ∈ w.pauses, pause.status = .opened →
    other.status = .opened → pause.runId = other.runId → pause.signalName.isSome →
    pause.signalName = other.signalName → pause.id = other.id
  /-- No pause stays open beside a signal that it waits for. -/
  noneMissed : ∀ pause ∈ w.pauses, pause.status = .opened → ¬E pause.id →
    ∀ signal ∈ w.signals, signal.runId = pause.runId →
    pause.signalName = some signal.signalName → signal.status ≠ .buffered

variable {E : PauseId → Prop} {w w' : World}

variable {signal : Signal} {other : Signal}

/-- The numbers tell the signals apart. -/
theorem Delivery.signal_eq (h : Delivery E w) (hsignal : signal ∈ w.signals)
    (hother : other ∈ w.signals) (hsame : signal.sequence = other.sequence) : signal = other := by
  have hnodup : (w.signals.map Signal.sequence).Nodup :=
    pairwise_map.mpr (h.sequences.imp Nat.ne_of_lt)
  exact inj_on_of_nodup_map hnodup hsignal hother hsame

variable {pause : Pause} {signals : List Signal}

theorem Delivery.pause_eq (h : Delivery E w) {other : Pause} (hpause : pause ∈ w.pauses)
    (hother : other ∈ w.pauses) (hsame : pause.id = other.id) : pause = other :=
  inj_on_of_nodup_map h.pauseIds hpause hother hsame

/-- Only the tables of pauses and signals matter. -/
theorem Delivery.of_eq (h : Delivery E w) (hpauses : w'.pauses = w.pauses)
    (hsignals : w'.signals = w.signals) (hresolved : w'.resolved = w.resolved)
    (hpause : w'.nextPause = w.nextPause) (hsequence : w'.nextSequence = w.nextSequence) :
    Delivery E w' := by
  constructor
  · rw [hpauses]; exact h.pauseIds
  · rw [hpauses, hpause]; exact h.pauseIds_lt
  · rw [hsignals]; exact h.sequences
  · rw [hsignals, hsequence]; exact h.sequences_lt
  · rw [hsignals]; exact h.keys
  · rw [hresolved]; exact h.resolvedOnce
  · rw [hresolved, hpause]; exact h.resolved_lt
  · rw [hpauses, hresolved]; exact h.open_iff
  · rw [hresolved, hsignals]; exact h.taken
  · rw [hresolved, hsignals]; exact h.order
  · rw [hsignals]; exact h.first
  · rw [hpauses]; exact h.openNames
  · rw [hpauses, hsignals]; exact h.noneMissed

section

variable {g : Signal → Signal} (hsequence : ∀ signal, (g signal).sequence = signal.sequence)
  (hrun : ∀ signal, (g signal).runId = signal.runId)
  (hname : ∀ signal, (g signal).signalName = signal.signalName)
include hsequence hrun hname

theorem inOrder_map {earlier later : PauseId × Resolution}
    (h : InOrder signals earlier later) : InOrder (signals.map g) earlier later := by
  intro signal hsignal₀ other hother₀ halike he hl
  obtain ⟨signal, hsignal, rfl⟩ := mem_map.mp hsignal₀
  obtain ⟨other, hother, rfl⟩ := mem_map.mp hother₀
  rw [Signal.Alike, hrun, hrun, hname, hname] at halike
  rw [hsequence] at he hl ⊢
  rw [hsequence]
  exact h signal hsignal other hother halike he hl

/-- Rows of signals change their statuses: none gets buffered, and the first are resumed first. -/
theorem Delivery.map_signals (h : Delivery E w)
    (hkey : ∀ signal, (g signal).idempotencyKey = signal.idempotencyKey)
    (hbuffered : ∀ signal, (g signal).status = .buffered → signal.status = .buffered)
    (hresumed : ∀ signal, signal.status = .resumed → (g signal).status = .resumed)
    (hfirst : ∀ signal ∈ w.signals, ∀ later ∈ w.signals, signal.Alike later →
      signal.sequence < later.sequence → (g signal).status = .buffered →
      (g later).status = .resumed → later.status = .resumed) :
    Delivery E { w with signals := w.signals.map g } where
  pauseIds := h.pauseIds
  pauseIds_lt := h.pauseIds_lt
  sequences := by
    refine pairwise_map.mpr (h.sequences.imp fun hlt => ?_)
    rwa [hsequence, hsequence]
  sequences_lt := by
    intro signal hsignal₀
    obtain ⟨signal, hsignal, rfl⟩ := mem_map.mp hsignal₀
    rw [hsequence]
    exact h.sequences_lt signal hsignal
  keys := by
    intro signal hsignal₀ other hother₀
    obtain ⟨signal, hsignal, rfl⟩ := mem_map.mp hsignal₀
    obtain ⟨other, hother, rfl⟩ := mem_map.mp hother₀
    rw [hrun, hrun, hkey, hkey, hsequence, hsequence]
    exact h.keys signal hsignal other hother
  resolvedOnce := h.resolvedOnce
  resolved_lt := h.resolved_lt
  open_iff := h.open_iff
  taken := by
    intro pauseId sequence hentry
    obtain ⟨signal, hsignal, hseq, hstatus⟩ := h.taken pauseId sequence hentry
    exact ⟨g signal, mem_map_of_mem hsignal, (hsequence signal).trans hseq, hresumed signal hstatus⟩
  order := h.order.imp (inOrder_map hsequence hrun hname)
  first := by
    intro signal hsignal₀ later hlater₀ halike hlt hstatus hresumed'
    obtain ⟨signal, hsignal, rfl⟩ := mem_map.mp hsignal₀
    obtain ⟨later, hlater, rfl⟩ := mem_map.mp hlater₀
    rw [Signal.Alike, hrun, hrun, hname, hname] at halike
    rw [hsequence, hsequence] at hlt
    exact h.first signal hsignal later hlater halike hlt (hbuffered signal hstatus)
      (hfirst signal hsignal later hlater halike hlt hstatus hresumed')
  openNames := h.openNames
  noneMissed := by
    intro pause hpause hopen hE signal hsignal₀ hsame hnamed hstatus
    obtain ⟨signal, hsignal, rfl⟩ := mem_map.mp hsignal₀
    rw [hrun] at hsame
    rw [hname] at hnamed
    exact h.noneMissed pause hpause hopen hE signal hsignal hsame hnamed
      (hbuffered signal hstatus)

end

/-- Open pauses end. -/
theorem Delivery.close {f : Pause → Pause} {ends : List (PauseId × Resolution)}
    (h : Delivery E w) (closes : Pause → Bool)
    (hid : ∀ pause, (f pause).id = pause.id) (hrun : ∀ pause, (f pause).runId = pause.runId)
    (hname : ∀ pause, (f pause).signalName = pause.signalName) (hstatus : ∀ pause ∈ w.pauses,
      (f pause).status = .opened ↔ pause.status = .opened ∧ closes pause = false)
    (hcloses : ∀ pause ∈ w.pauses, closes pause = true → pause.status = .opened)
    (hends : ends.map Prod.fst = (w.pauses.filter closes).map Pause.id)
    (htaken : ∀ pauseId sequence, (pauseId, Resolution.signal sequence) ∈ ends →
      ∃ signal ∈ w.signals, signal.sequence = sequence ∧ signal.status = .resumed)
    (horder : ∀ earlier ∈ w.resolved, ∀ later ∈ ends, InOrder w.signals earlier later)
    (hown : ends.Pairwise (InOrder w.signals)) :
    Delivery E { w with pauses := w.pauses.map f, resolved := w.resolved ++ ends } := by
  have hmem : ∀ pauseId, pauseId ∈ ends.map Prod.fst ↔
      ∃ pause ∈ w.pauses, closes pause = true ∧ pause.id = pauseId := by
    intro pauseId
    rw [hends, mem_map]
    constructor
    · rintro ⟨pause, hpause, rfl⟩
      obtain ⟨hpause, hclose⟩ := mem_filter.mp hpause
      exact ⟨pause, hpause, hclose, rfl⟩
    · rintro ⟨pause, hpause, hclose, rfl⟩
      exact ⟨pause, mem_filter.mpr ⟨hpause, hclose⟩, rfl⟩
  refine ⟨?_, ?_, h.sequences, h.sequences_lt, h.keys, ?_, ?_, ?_, ?_, ?_, h.first, ?_, ?_⟩
  · rw [map_map]
    simpa only [Function.comp_def, hid] using h.pauseIds
  · intro pause hpause₀
    obtain ⟨pause, hpause, rfl⟩ := mem_map.mp hpause₀
    rw [hid]
    exact h.pauseIds_lt pause hpause
  · rw [map_append, nodup_append]
    refine ⟨h.resolvedOnce, ?_, fun pauseId hold other hnew hsame => ?_⟩
    · rw [hends]
      exact h.pauseIds.sublist (filter_sublist.map _)
    · obtain ⟨pause, hpause, hclose, hid'⟩ := (hmem other).mp hnew
      refine (h.open_iff pause hpause).mp (hcloses pause hpause hclose) ?_
      rwa [hid', ← hsame]
  · intro entry hentry
    rcases mem_append.mp hentry with hentry | hentry
    · exact h.resolved_lt entry hentry
    · obtain ⟨pause, hpause, -, hid'⟩ := (hmem entry.1).mp (mem_map_of_mem hentry)
      rw [← hid']
      exact h.pauseIds_lt pause hpause
  · intro pause hpause₀
    obtain ⟨pause, hpause, rfl⟩ := mem_map.mp hpause₀
    rw [hstatus pause hpause, hid, h.open_iff pause hpause, map_append, mem_append,
      not_or, and_congr_right_iff]
    intro _
    rw [hmem]
    constructor
    · rintro hclose ⟨other, hother, hother', hsame⟩
      rw [h.pause_eq hother hpause hsame, hclose] at hother'
      cases hother'
    · intro hnone
      rw [← Bool.not_eq_true]
      exact fun hclose => hnone ⟨pause, hpause, hclose, rfl⟩
  · intro pauseId sequence hentry
    rcases mem_append.mp hentry with hentry | hentry
    · exact h.taken pauseId sequence hentry
    · exact htaken pauseId sequence hentry
  · exact pairwise_append.mpr ⟨h.order, hown, horder⟩
  · intro pause hpause₀ other hother₀ hopen hopen'
    obtain ⟨pause, hpause, rfl⟩ := mem_map.mp hpause₀
    obtain ⟨other, hother, rfl⟩ := mem_map.mp hother₀
    rw [hrun, hrun, hname, hname, hid, hid]
    exact h.openNames pause hpause other hother ((hstatus pause hpause).mp hopen).1
      ((hstatus other hother).mp hopen').1
  · intro pause hpause₀ hopen hE signal hsignal
    obtain ⟨pause, hpause, rfl⟩ := mem_map.mp hpause₀
    rw [hrun, hname]
    rw [hid] at hE
    exact h.noneMissed pause hpause ((hstatus pause hpause).mp hopen).1 hE signal hsignal

theorem Delivery.discard (h : Delivery E w) (runId : RunId) : Delivery E
    (w.discardSignals runId) := by
  refine h.map_signals (fun signal => ?_) (fun signal => ?_) (fun signal => ?_) (fun signal => ?_)
    (fun signal => ?_) (fun signal hresumed => ?_) fun signal _ later _ _ _ _ hresumed => ?_
  · split <;> rfl
  · split <;> rfl
  · split <;> rfl
  · split <;> rfl
  · split
    · exact fun hstatus => nomatch hstatus
    · exact id
  · rw [if_neg fun hwaits => by rw [hresumed] at hwaits; exact nomatch hwaits.2]
    exact hresumed
  · split at hresumed
    · cases hresumed
    · exact hresumed

theorem Delivery.cancel (h : Delivery E w) (which : Pause → Bool) :
    Delivery E (w.cancelPauses which) := by
  have hcanceled : ∀ (pauses : List Pause), ∀ entry ∈ pauses.map (fun pause : Pause =>
      (pause.id, Resolution.canceled)), entry.2 = .canceled := by
    intro pauses entry hentry
    obtain ⟨pause, -, rfl⟩ := mem_map.mp hentry
    rfl
  refine h.close (fun pause => which pause ∧ pause.status = .opened)
    (fun pause => ?_) (fun pause => ?_) (fun pause => ?_) (fun pause _ => ?_)
    (fun pause _ hcloses => (of_decide_eq_true hcloses).2) ?_ (fun pauseId sequence hentry => ?_)
    (fun earlier _ later hlater signal _ other _ _ _ htaken => ?_) ?_
  · split <;> rfl
  · split <;> rfl
  · split <;> rfl
  · rw [decide_eq_false_iff_not]
    split
    · rename_i hcloses
      exact ⟨fun hopen => (nomatch hopen), fun hopen => absurd hcloses hopen.2⟩
    · rename_i hcloses
      exact ⟨fun hopen => ⟨hopen, hcloses⟩, And.left⟩
  · rw [map_map]
    rfl
  · exact nomatch hcanceled _ _ hentry
  · rw [hcanceled _ later hlater] at htaken
    cases htaken
  · refine pairwise_iff_forall_sublist.mpr fun {earlier later} hsub => ?_
    intro signal _ other _ _ _ htaken
    rw [hcanceled _ later (hsub.subset (by simp))] at htaken
    cases htaken

/-- **Operations that deliver nothing keep what holds.** -/
theorem Delivery.quiet (h : Delivery E w) (hquiet : Quiet w w') : Delivery E w' := by
  induction hquiet with
  | same hpauses hsignals hresolved hpause hsequence =>
    exact h.of_eq hpauses hsignals hresolved hpause hsequence
  | discard w runId => exact h.discard runId
  | cancel w which => exact h.cancel which
  | trans _ _ ih ih' => exact ih' (ih h)

/-! ## A pause ends -/

/-- No open pause is left out. -/
abbrev nothing : PauseId → Prop := fun _ => False

/-- Pauses that are not open, or that no signal waits for, need no exception. -/
theorem Delivery.settle {E' : PauseId → Prop} (h : Delivery E w)
    (hE : ∀ pause ∈ w.pauses, pause.status = .opened → E pause.id → ¬E' pause.id →
      ∀ signal ∈ w.signals, signal.runId = pause.runId →
      pause.signalName = some signal.signalName → signal.status ≠ .buffered) :
    Delivery E' w := by
  refine { h with noneMissed := fun pause hpause hopen hE' signal hsignal => ?_ }
  by_cases hexcept : E pause.id
  · exact hE pause hpause hopen hexcept hE' signal hsignal
  · exact h.noneMissed pause hpause hopen hexcept signal hsignal

theorem Quiet.resolved_mono (h : Quiet w w') : w.resolved.map Prod.fst ⊆ w'.resolved.map
    Prod.fst := by
  induction h with
  | same _ _ hresolved => rw [hresolved]; exact List.Subset.refl _
  | discard => exact List.Subset.refl _
  | cancel =>
    rw [World.cancelPauses, map_append]
    exact subset_append_left _ _
  | trans _ _ ih ih' => exact List.Subset.trans ih ih'

/-- An open pause ends, by a signal only where it is the next of its name. -/
theorem Delivery.resolve (h : Delivery E w) (resolution : Resolution) (set : Pause → Pause)
    (hpause : pause ∈ w.pauses) (hopen : pause.status = .opened)
    (hid : ∀ pause, (set pause).id = pause.id) (hrun : ∀ pause, (set pause).runId = pause.runId)
    (hname : ∀ pause, (set pause).signalName = pause.signalName)
    (hstatus : ∀ pause, (set pause).status ≠ .opened)
    (htaken : ∀ sequence, resolution = .signal sequence →
      ∃ signal ∈ w.signals, signal.sequence = sequence ∧ signal.status = .resumed)
    (horder : ∀ earlier ∈ w.resolved, InOrder w.signals earlier (pause.id, resolution)) :
    Delivery E (w.resolve pause.id resolution set) := by
  refine h.close (fun other => other.id = pause.id) (fun other => ?_) (fun other => ?_)
    (fun other => ?_) (fun other _ => ?_) (fun other hother hsame => ?_) ?_
    (fun pauseId sequence hentry => ?_) (fun earlier hearlier later hlater => ?_)
    (pairwise_singleton _ _)
  · split
    · exact hid other
    · rfl
  · split
    · exact hrun other
    · rfl
  · split
    · exact hname other
    · rfl
  · rw [decide_eq_false_iff_not]
    split
    · rename_i hsame
      exact ⟨fun hstill => absurd hstill (hstatus other), fun hother => absurd hsame hother.2⟩
    · rename_i hother
      exact ⟨fun hopen => ⟨hopen, hother⟩, And.left⟩
  · rw [h.pause_eq hother hpause (of_decide_eq_true hsame), hopen]
  · have hfilter : (w.pauses.filter fun other => other.id = pause.id).map Pause.id =
        (w.pauses.map Pause.id).filter fun pauseId => pauseId = pause.id := by
      rw [filter_map]
      rfl
    rw [hfilter, filter_eq, count_eq_one_of_mem h.pauseIds (mem_map_of_mem hpause)]
    rfl
  · rw [mem_singleton, Prod.mk.injEq] at hentry
    exact htaken sequence hentry.2.symm
  · rw [mem_singleton.mp hlater]
    exact horder earlier hearlier

/-- What follows the end of a pause in its transaction. -/
theorem Delivery.resolvePause {resolution : Resolution} {set : Pause → Pause}
    (h : Delivery E (w.resolve pause.id resolution set)) (output : Json) :
    Delivery E ((w.resolve pause.id resolution set).resolvePause pause output).1 ∧ pause.id ∈
        ((w.resolve pause.id resolution set).resolvePause pause output).1.resolved.map
          Prod.fst := by
  have hquiet : Quiet _ ((w.resolve pause.id resolution set).resolvePause pause output).1 :=
    Moves.resolvePause.quiet
  exact ⟨h.quiet hquiet, hquiet.resolved_mono (by simp [World.resolve])⟩

theorem Delivery.timeOut (h : Delivery E w) (hpause : pause ∈ w.pauses)
    (hopen : pause.status = .opened) :
    Delivery E (w.timeOut pause).1 ∧ pause.id ∈ (w.timeOut pause).1.resolved.map Prod.fst :=
  (h.resolve .timedOut
    (fun pause => { pause with status := .timedOut, resolvedAt := some w.now }) hpause hopen
    (fun _ => rfl) (fun _ => rfl) (fun _ => rfl) (fun _ hstatus => nomatch hstatus)
    (fun _ hsignal => nomatch hsignal)
    fun _ _ _ _ _ _ _ _ hsignal => nomatch hsignal).resolvePause (pause.outcome "timed_out" none)

/-- In a list in the order of a number, the first that is found has the least. -/
theorem find?_least {p : Signal → Bool} {signal other : Signal}
    (hsorted : signals.Pairwise fun signal later => signal.sequence < later.sequence)
    (hfind : signals.find? p = some signal) (hother : other ∈ signals) (hp : p other = true) :
    signal.sequence ≤ other.sequence := by
  obtain ⟨-, before, after, rfl, hbefore⟩ := List.find?_eq_some_iff_append.mp hfind
  rcases mem_append.mp hother with hother | hother
  · have hnot := hbefore other hother
    rw [hp] at hnot
    cases hnot
  · rcases mem_cons.mp hother with rfl | hother
    · exact Nat.le_refl _
    · have hrest := (pairwise_append.mp hsorted).2.1
      exact Nat.le_of_lt (rel_of_pairwise_cons hrest hother)

section

variable {signal : Signal} {pauseId : PauseId} {sequence now : Nat}

/-- A signal that may have been resumed is the same signal. -/
theorem resumeIf_sequence : (if signal.sequence = sequence then signal.resume pauseId now
    else signal).sequence = signal.sequence := by
  split <;> rfl

theorem resumeIf_alike : (if signal.sequence = sequence then signal.resume pauseId now
    else signal).Alike signal := by
  split <;> exact ⟨rfl, rfl⟩

theorem resumeIf_key : (if signal.sequence = sequence then signal.resume pauseId now
    else signal).idempotencyKey = signal.idempotencyKey := by
  split <;> rfl

end

variable {pauseId : PauseId} {name : Text}

/-- What was consumed of a name is before a signal of the name that waits. -/
theorem Delivery.consumed_lt (h : Delivery E w) (hsignal : signal ∈ w.signals)
    (hbuffered : signal.status = .buffered) (hother : other ∈ w.signals)
    (halike : signal.Alike other)
    (htaken : (pauseId, Resolution.signal other.sequence) ∈ w.resolved) :
    other.sequence < signal.sequence := by
  obtain ⟨resumed, hresumed, hsame, hstatus⟩ := h.taken pauseId other.sequence htaken
  rw [h.signal_eq hresumed hother hsame] at hstatus
  rcases Nat.lt_trichotomy other.sequence signal.sequence with hlt | heq | hgt
  · exact hlt
  · rw [h.signal_eq hother hsignal heq, hbuffered] at hstatus
    cases hstatus
  · exact absurd hstatus (h.first signal hsignal other hother halike hgt hbuffered)

/-- The first buffered signal of its name ends an open pause. -/
theorem Delivery.consume (h : Delivery E w) (set : Pause → Pause)
    (hpause : pause ∈ w.pauses) (hopen : pause.status = .opened)
    (hfind : (w.signals.find? fun signal => signal.runId = pause.runId &&
      signal.signalName = name && signal.status = .buffered) = some signal)
    (hid : ∀ pause, (set pause).id = pause.id) (hrun : ∀ pause, (set pause).runId = pause.runId)
    (hname : ∀ pause, (set pause).signalName = pause.signalName)
    (hstatus : ∀ pause, (set pause).status ≠ .opened) :
    Delivery E ((w.resumeSignal signal.sequence pause.id).resolve pause.id
      (.signal signal.sequence) set) := by
  have hsignal := mem_of_find?_eq_some hfind
  have hmatch := List.find?_some hfind
  simp only [Bool.and_eq_true, decide_eq_true_eq] at hmatch
  obtain ⟨⟨hsignalRun, hsignalName⟩, hbuffered⟩ := hmatch
  have hmarked : Delivery E (w.resumeSignal signal.sequence pause.id) := by
    refine h.map_signals (fun other => resumeIf_sequence) (fun other => resumeIf_alike.1)
      (fun other => resumeIf_alike.2) (fun other => resumeIf_key) (fun other hstill => ?_)
      (fun other hresumed => ?_) fun other hother later hlater halike hlt hstill hresumed => ?_
    · split at hstill
      · cases hstill
      · exact hstill
    · split
      · rfl
      · exact hresumed
    · split at hresumed
      · rename_i hsame
        -- An earlier one of the name that waits would have been found.
        rw [if_neg (by omega)] at hstill
        rw [Signal.Alike, h.signal_eq hlater hsignal hsame] at halike
        have hle := find?_least h.sequences hfind hother (by
          simp [halike.1, halike.2, hsignalRun, hsignalName, hstill])
        omega
      · exact hresumed
  refine hmarked.resolve _ set hpause hopen hid hrun hname hstatus (fun sequence hsequence => ?_)
    fun earlier hearlier other hother₀ later hlater₀ halike htaken hlast => ?_
  · obtain rfl := Resolution.signal.inj hsequence
    refine ⟨_, mem_map_of_mem hsignal, ?_, ?_⟩
    · exact resumeIf_sequence
    · rw [if_pos rfl]
      rfl
  · obtain ⟨other, hother, rfl⟩ := mem_map.mp hother₀
    obtain ⟨later, hlater, rfl⟩ := mem_map.mp hlater₀
    rw [resumeIf_sequence] at htaken hlast ⊢
    rw [resumeIf_sequence]
    obtain rfl := h.signal_eq hsignal hlater (Resolution.signal.inj hlast)
    obtain ⟨pauseId, resolution⟩ := earlier
    obtain rfl : resolution = .signal other.sequence := htaken
    have hsame : signal.Alike other :=
      ⟨(resumeIf_alike.1.symm.trans halike.1.symm).trans resumeIf_alike.1,
        (resumeIf_alike.2.symm.trans halike.2.symm).trans resumeIf_alike.2⟩
    exact h.consumed_lt hsignal hbuffered hother hsame hearlier

/-- **A pause that finds a signal, or its timeout, ends; one that stays open misses none.** -/
theorem Delivery.resolveNamedPause (h : Delivery E w) (values : Values)
    (hE : ∀ pauseId, E pauseId → pauseId = pause.id) (hpause : pause ∈ w.pauses)
    (hopen : pause.status = .opened) :
    (∀ result, w.resolveNamedPause values pause = some result → Delivery nothing result.1) ∧
      (w.resolveNamedPause values pause = none → Delivery nothing w) := by
  have hended : ∀ {w' : World}, Delivery E w' → pause.id ∈ w'.resolved.map Prod.fst →
      Delivery nothing w' := by
    intro w' h' hend
    refine h'.settle fun other hother hstill hexcept _ => ?_
    rw [h'.open_iff other hother, hE _ hexcept] at hstill
    exact absurd hend hstill
  unfold World.resolveNamedPause
  split
  · refine ⟨fun result hresult => ?_, fun hnone => nomatch hnone⟩
    cases hresult
    obtain ⟨h', hend⟩ := h.timeOut hpause hopen
    exact hended h' hend
  · split
    · rename_i hname
      refine ⟨fun result hresult => (nomatch hresult), fun _ => ?_⟩
      refine h.settle fun other hother _ hexcept _ signal _ _ hnamed => ?_
      rw [h.pause_eq hother hpause (hE _ hexcept), hname] at hnamed
      cases hnamed
    · rename_i name hname
      split
      · rename_i hfind
        refine ⟨fun result hresult => (nomatch hresult), fun _ => ?_⟩
        refine h.settle fun other hother _ hexcept _ signal hsignal hsame hnamed hbuffered => ?_
        rw [h.pause_eq hother hpause (hE _ hexcept)] at hsame hnamed
        rw [hname, Option.some.injEq] at hnamed
        have hnot := List.find?_eq_none.mp hfind signal hsignal
        simp [hsame, hnamed, hbuffered] at hnot
      · rename_i signal hfind
        refine ⟨fun result hresult => ?_, fun hnone => nomatch hnone⟩
        cases hresult
        have hconsume := h.consume (fun pause => pause.resume signal.idempotencyKey
            (values.jsonHash (signal.value.getD .null)) (signal.value.getD .null) w.now)
          hpause hopen hfind (fun _ => rfl) (fun _ => rfl) (fun _ => rfl)
          fun _ hstatus => nomatch hstatus
        obtain ⟨h', hend⟩ :=
          hconsume.resolvePause (pause.outcome "resumed" (signal.value.getD .null))
        exact hended h' hend

/-! ## A pause opens, a signal arrives -/

/-- A pause is inserted where no signal was looked for yet. -/
theorem Delivery.insertPause (h : Delivery nothing w) (hid : pause.id = w.nextPause)
    (hopen : pause.status = .opened) (hinsert : w.insertPause pause = some w') :
    Delivery (· = pause.id) w' ∧ pause ∈ w'.pauses := by
  unfold World.insertPause at hinsert
  split at hinsert
  · cases hinsert
  · rename_i hnone
    cases hinsert
    have hother : ∀ other ∈ w.pauses, other.status = .opened → other.runId = pause.runId →
        other.signalName.isSome → other.signalName ≠ pause.signalName := by
      intro other hmem hstill hrun hsome hname
      refine hnone (any_eq_true.mpr ⟨other, hmem, ?_⟩)
      rw [hname] at hsome
      simp [hstill, hrun, hname, hsome]
    have hfresh : pause.id ∉ w.resolved.map Prod.fst := by
      intro hend
      obtain ⟨entry, hentry, hsame⟩ := mem_map.mp hend
      have hlt := h.resolved_lt entry hentry
      rw [hsame, hid] at hlt
      exact Nat.lt_irrefl _ hlt
    refine ⟨⟨?_, ?_, h.sequences, h.sequences_lt, h.keys, h.resolvedOnce, ?_, ?_, h.taken, h.order,
      h.first, ?_, ?_⟩, mem_append_right _ (mem_singleton.mpr rfl)⟩
    · rw [map_append, map_singleton, nodup_append]
      refine ⟨h.pauseIds, nodup_singleton _, fun pauseId hold other hnew hsame => ?_⟩
      obtain ⟨old, hmem, rfl⟩ := mem_map.mp hold
      have hlt := h.pauseIds_lt old hmem
      rw [hsame, mem_singleton.mp hnew, hid] at hlt
      exact Nat.lt_irrefl _ hlt
    · intro other hmem
      rcases mem_append.mp hmem with hmem | hmem
      · exact Nat.lt_succ_of_lt (h.pauseIds_lt other hmem)
      · rw [mem_singleton.mp hmem, hid]
        exact Nat.lt_succ_self _
    · exact fun entry hentry => Nat.lt_succ_of_lt (h.resolved_lt entry hentry)
    · intro other hmem
      rcases mem_append.mp hmem with hmem | hmem
      · exact h.open_iff other hmem
      · rw [mem_singleton.mp hmem]
        exact ⟨fun _ => hfresh, fun _ => hopen⟩
    · intro one hone₀ two htwo₀ hopen₁ hopen₂ hrun hsome hname
      rcases mem_append.mp hone₀ with hone | hone
      · rcases mem_append.mp htwo₀ with htwo | htwo
        · exact h.openNames one hone two htwo hopen₁ hopen₂ hrun hsome hname
        · obtain rfl := mem_singleton.mp htwo
          exact absurd hname (hother one hone hopen₁ hrun hsome)
      · obtain rfl := mem_singleton.mp hone
        rcases mem_append.mp htwo₀ with htwo | htwo
        · exact absurd hname.symm (hother two htwo hopen₂ hrun.symm (hname ▸ hsome))
        · rw [mem_singleton.mp htwo]
    · intro other hmem hstill hexcept
      rcases mem_append.mp hmem with hmem | hmem
      · exact h.noneMissed other hmem hstill id
      · exact absurd (congrArg Pause.id (mem_singleton.mp hmem)) hexcept

/-- A new signal may have an open pause that waits for it. -/
theorem Delivery.insertSignal (h : Delivery nothing w) (signal : Signal)
    (hsequence : signal.sequence = w.nextSequence) (hstatus : signal.status = .buffered)
    (hkey : ∀ other ∈ w.signals, other.runId = signal.runId →
      other.idempotencyKey ≠ signal.idempotencyKey) :
    Delivery (fun pauseId => ∃ pause ∈ w.pauses, pause.id = pauseId ∧ pause.status = .opened ∧
        pause.runId = signal.runId ∧ pause.signalName = some signal.signalName)
      { w with signals := w.signals ++ [signal], nextSequence := w.nextSequence + 1 } where
  pauseIds := h.pauseIds
  pauseIds_lt := h.pauseIds_lt
  sequences := by
    refine pairwise_append.mpr ⟨h.sequences, pairwise_singleton _ _, fun old hold new hnew => ?_⟩
    rw [mem_singleton.mp hnew, hsequence]
    exact h.sequences_lt old hold
  sequences_lt := by
    intro other hother
    rcases mem_append.mp hother with hother | hother
    · exact Nat.lt_succ_of_lt (h.sequences_lt other hother)
    · rw [mem_singleton.mp hother, hsequence]
      exact Nat.lt_succ_self _
  keys := by
    intro one hone₀ two htwo₀ hrun hsame
    rcases mem_append.mp hone₀ with hone | hone
    · rcases mem_append.mp htwo₀ with htwo | htwo
      · exact h.keys one hone two htwo hrun hsame
      · obtain rfl := mem_singleton.mp htwo
        exact absurd hsame (hkey one hone hrun)
    · obtain rfl := mem_singleton.mp hone
      rcases mem_append.mp htwo₀ with htwo | htwo
      · exact absurd hsame.symm (hkey two htwo hrun.symm)
      · rw [mem_singleton.mp htwo]
  resolvedOnce := h.resolvedOnce
  resolved_lt := h.resolved_lt
  open_iff := h.open_iff
  taken := by
    intro pauseId sequence hentry
    obtain ⟨old, hold, hsame, hresumed⟩ := h.taken pauseId sequence hentry
    exact ⟨old, mem_append_left _ hold, hsame, hresumed⟩
  order := by
    refine List.Pairwise.imp_of_mem (fun {earlier later} hearlier hlater hin => ?_) h.order
    intro one hone two htwo halike hfirst hlast
    -- What is consumed has the number of an old row.
    have hold : ∀ row ∈ w.signals ++ [signal], ∀ entry ∈ w.resolved,
        entry.2 = .signal row.sequence → row ∈ w.signals := by
      intro row hrow entry hentry htaken
      rcases mem_append.mp hrow with hrow | hrow
      · exact hrow
      · obtain ⟨old, hold, hsame, -⟩ := h.taken entry.1 row.sequence (htaken ▸ hentry)
        rw [mem_singleton.mp hrow, hsequence] at hsame
        have hlt := h.sequences_lt old hold
        omega
    exact hin one (hold one hone earlier hearlier hfirst) two (hold two htwo later hlater hlast)
      halike hfirst hlast
  first := by
    intro one hone two htwo halike hlt hbuffered
    rcases mem_append.mp htwo with htwo | htwo
    · rcases mem_append.mp hone with hone | hone
      · exact h.first one hone two htwo halike hlt hbuffered
      · rw [mem_singleton.mp hone, hsequence] at hlt
        have hlt' := h.sequences_lt two htwo
        omega
    · rw [mem_singleton.mp htwo, hstatus]
      exact fun hresumed => nomatch hresumed
  openNames := h.openNames
  noneMissed := by
    intro pause hpause hopen hexcept other hother hrun hname
    rcases mem_append.mp hother with hother | hother
    · exact h.noneMissed pause hpause hopen id other hother hrun hname
    · rw [mem_singleton.mp hother] at hrun hname
      exact absurd ⟨pause, hpause, rfl, hopen, hrun.symm, hname⟩ hexcept

variable {values : Values} {ownsJob : Bool}

theorem Delivery.suspendForPause {attemptId : AttemptId}
    {transition : PauseTransition} (h : Delivery nothing w)
    (hs : w.suspendForPause values attemptId ownsJob transition = some w') :
    Delivery nothing w' := by
  rcases suspendForPause_cases hs with rfl | ⟨run, attempt, pause, w₁, -, -, hinsert,
    ⟨hid, -, -, hopen, -⟩, w₂, hw₂, hrest⟩
  · exact h
  · obtain ⟨h₁, hpause⟩ := h.insertPause hid hopen hinsert
    -- The run goes to waiting, so the update neither ends pauses nor discards signals.
    have hsame : w₂.pauses = w₁.pauses := by
      rw [hw₂, (updateRun_rows ..).1]
      rfl
    have h₂ : Delivery (· = pause.id) w₂ := by
      rw [hw₂]
      exact h₁.quiet (Moves.setAttempt.quiet.trans (quiet_updateRun ..))
    obtain ⟨hsome, hnone⟩ := h₂.resolveNamedPause values (fun _ heq => heq) (hsame ▸ hpause) hopen
    rcases hrest with ⟨hstays, rfl⟩ | ⟨result, hresult, hfinish⟩
    · exact hnone hstays
    · exact (hsome result hresult).quiet (quiet_finish hfinish)

variable {runId : RunId} {idempotencyKey : Text} {value : Json}

theorem Delivery.signalByKey {signal : Text} {receipt : Receipt} (h : Delivery nothing w)
    (hs : w.signalByKey values runId signal idempotencyKey value = .ok (some (w', receipt))) :
    Delivery nothing w' := by
  obtain ⟨name, hash, -, ⟨existing, -, -, -, -, -, rfl⟩ |
    ⟨hnew, row, hrow, w₁, rfl, found, hfound, hrest⟩⟩ := signalByKey_cases hs
  · exact h
  · have h₁ := h.insertSignal row (by rw [hrow]) (by rw [hrow]) (by rw [hrow]; exact hnew)
    have hmatch : ∀ pause, found = some pause → pause ∈ w.pauses ∧ pause.status = .opened ∧
        pause.runId = runId ∧ pause.signalName = some name := by
      rintro pause rfl
      have hpause := List.find?_some hfound
      simp only [Bool.and_eq_true, decide_eq_true_eq] at hpause
      exact ⟨mem_of_find?_eq_some hfound, hpause.2, hpause.1.1, hpause.1.2⟩
    -- The pause that the signal finds is the only one of its name.
    have honly : ∀ pause, found = some pause → ∀ pauseId, (∃ other ∈ w.pauses,
        other.id = pauseId ∧ other.status = .opened ∧ other.runId = row.runId ∧
          other.signalName = some row.signalName) → pauseId = pause.id := by
      rintro pause hsome pauseId ⟨other, hother, rfl, hstill, hrun, hnamed⟩
      obtain ⟨hpause, hopen, hrun', hnamed'⟩ := hmatch pause hsome
      rw [hrow] at hrun hnamed
      exact h.openNames other hother pause hpause hstill hopen (hrun.trans hrun'.symm)
        (by rw [hnamed]; rfl) (hnamed.trans hnamed'.symm)
    rcases hrest with ⟨hnone, rfl⟩ | ⟨pause, result, hsome, hresult, hfinish⟩
    · cases hfind : found with
      | none =>
        refine h₁.settle fun pause hpause hopen hexcept _ => ?_
        obtain ⟨other, hother, -, hstill, hrun, hnamed⟩ := hexcept
        rw [hfind] at hfound
        rw [hrow] at hrun hnamed
        have hnot := List.find?_eq_none.mp hfound other hother
        simp [hrun, hnamed, hstill] at hnot
      | some pause =>
        obtain ⟨hpause, hopen, -, -⟩ := hmatch pause hfind
        exact (h₁.resolveNamedPause values (honly pause hfind) hpause hopen).2
          (hnone pause hfind)
    · obtain ⟨hpause, hopen, -, -⟩ := hmatch pause hsome
      exact ((h₁.resolveNamedPause values (honly pause hsome) hpause hopen).1 result
        hresult).quiet (quiet_finish hfinish)

/-! ## Every operation -/

theorem Delivery.resumePause (h : Delivery nothing w)
    (hs : w.resumePause values runId pauseId idempotencyKey value = .ok (some w')) :
    Delivery nothing w' := by
  obtain ⟨pause, hpause, -, -, ⟨-, -, rfl⟩ | ⟨hopen, ⟨-, hfinish⟩ | ⟨-, hfinish⟩⟩⟩ :=
    resumePause_cases hs
  · exact h
  · exact (h.timeOut hpause hopen).1.quiet (quiet_finish hfinish)
  · have hresolve := h.resolve .resumed (fun pause =>
        pause.resume (storableText idempotencyKey) (values.jsonHash value) value w.now)
      hpause hopen (fun _ => rfl) (fun _ => rfl) (fun _ => rfl)
      (fun _ hstatus => nomatch hstatus) (fun _ hsignal => nomatch hsignal)
      fun _ _ _ _ _ _ _ _ hsignal => nomatch hsignal
    exact (hresolve.resolvePause _).1.quiet (quiet_finish hfinish)

theorem Delivery.resolvePauseTimeout (h : Delivery nothing w)
    (hs : w.resolvePauseTimeout runId pauseId ownsJob = some w') : Delivery nothing w' := by
  rcases resolvePauseTimeout_cases hs with rfl | ⟨pause, hpause, -, hopen, hfinish⟩
  · exact h
  · exact (h.timeOut hpause hopen).1.quiet (quiet_finish hfinish)

theorem quiet_cancel {reason : Option String} {reconcile : Option RunId}
    (h : w.cancel runId reason = some (w', reconcile)) : Quiet w w' := by
  obtain ⟨root, -, hcancel⟩ := Option.map_eq_some_iff.mp h
  dsimp only at hcancel
  split at hcancel
  · obtain rfl := congrArg Prod.fst hcancel
    exact .refl w
  · obtain rfl := congrArg Prod.fst hcancel
    have hfold : ∀ (ids : List RunId) (w₁ : World), Quiet w₁ (ids.foldl (fun w' id =>
        w'.updateRun id (fun _ => true) fun run =>
          { run with status := .canceled, cancelReason := reason }) w₁) := by
      intro ids
      induction ids with
      | nil => exact .refl
      | cons id ids ih => exact fun w₁ => (quiet_updateRun ..).trans (ih _)
    exact (Moves.endAttempts.quiet.trans (.cancel _ _)).trans (hfold _ _)

/-- **Every operation keeps what holds of pauses and signals.** -/
theorem delivery_step {action : Action} (h : Delivery nothing w)
    (hs : step values w action = some w') : Delivery nothing w' := by
  cases step_stepped hs with
  | moves hmoves => exact h.quiet hmoves.quiet
  | cancels hcancel hrest => exact h.quiet ((quiet_cancel hcancel).trans hrest.quiet)
  | suspends hsuspend => exact h.suspendForPause hsuspend
  | signals hsignal => exact h.signalByKey hsignal
  | resumes hresume => exact h.resumePause hresume
  | timesOut htimeout => exact h.resolvePauseTimeout htimeout

theorem delivery_empty (now : Nat) : Delivery nothing (empty now) := by
  constructor <;> simp [empty]

theorem delivery_reachable {now : Nat} (h : Reach (step values) anyEvent (empty now) w) :
    Delivery nothing w :=
  h.invariant (delivery_empty now) fun _ _ _ hinv _ => delivery_step hinv

variable {ended : PauseId × Nat}

/-! ## Every run of the system -/

section

variable {p : Signal → Bool}

/-- What an entry says that is read as the end by a signal. -/
theorem endedBy_spec {entry : PauseId × Resolution} (h : (match entry.2 with
      | .signal sequence =>
        if w.signals.any fun signal => signal.sequence = sequence && p signal then
          some (entry.1, sequence)
        else none
      | _ => none) = some ended) :
    entry = (ended.1, .signal ended.2) ∧
      ∃ signal ∈ w.signals, signal.sequence = ended.2 ∧ p signal = true := by
  obtain ⟨pauseId, resolution⟩ := entry
  cases resolution with
  | signal sequence =>
    dsimp only at h
    split at h
    · rename_i hany
      cases h
      obtain ⟨signal, hsignal, hmatch⟩ := any_eq_true.mp hany
      rw [Bool.and_eq_true, decide_eq_true_eq] at hmatch
      exact ⟨rfl, signal, hsignal, hmatch⟩
    · cases h
  | resumed => cases h
  | timedOut => cases h
  | canceled => cases h

theorem mem_endedBy (h : ended ∈ w.endedBy p) : (ended.1, Resolution.signal ended.2) ∈ w.resolved ∧
      ∃ signal ∈ w.signals, signal.sequence = ended.2 ∧ p signal = true := by
  obtain ⟨entry, hentry, hread⟩ := mem_filterMap.mp h
  obtain ⟨rfl, hsignal⟩ := endedBy_spec hread
  exact ⟨hentry, hsignal⟩

/-- Alike signals ended pauses in the order of their numbers. -/
theorem endedBy_pairwise (h : Delivery E w)
    (halike : ∀ signal other, p signal = true → p other = true → signal.Alike other ∨
      signal.runId = other.runId ∧ signal.idempotencyKey = other.idempotencyKey) :
    (w.endedBy p).Pairwise fun earlier later => earlier.2 < later.2 := by
  refine h.order.filterMap _ fun earlier later hin first hfirst last hlast => ?_
  obtain ⟨rfl, signal, hsignal, hsequence, hp⟩ := endedBy_spec hfirst
  obtain ⟨rfl, other, hother, hsequence', hp'⟩ := endedBy_spec hlast
  rw [← hsequence, ← hsequence'] at hin ⊢
  rcases halike signal other hp hp' with hsame | ⟨hrun, hkey⟩
  · exact hin signal hsignal other hother hsame rfl rfl
  · obtain rfl := h.signal_eq hsignal hother (h.keys signal hsignal other hother hrun hkey)
    exact hin signal hsignal signal hsignal ⟨rfl, rfl⟩ rfl rfl

end

/-- One key, one signal, which ends one pause. -/
theorem resumedBy_length (h : Delivery E w) (runId : RunId) (key : Text) :
    (w.resumedBy runId key).length ≤ 1 := by
  rw [World.resumedBy, length_map]
  have hpairwise := endedBy_pairwise
    (p := fun signal => signal.runId = runId && signal.idempotencyKey = key) h
    fun signal other hp hp' => by
      simp only [Bool.and_eq_true, decide_eq_true_eq] at hp hp'
      exact .inr ⟨hp.1.trans hp'.1.symm, hp.2.trans hp'.2.symm⟩
  have hone : ∀ ended ∈ w.endedBy fun signal =>
      signal.runId = runId && signal.idempotencyKey = key,
      ∀ other ∈ w.endedBy fun signal => signal.runId = runId && signal.idempotencyKey = key,
        ended.2 = other.2 := by
    intro ended hended other hother
    obtain ⟨-, signal, hsignal, hsequence, hp⟩ := mem_endedBy hended
    obtain ⟨-, signal', hsignal', hsequence', hp'⟩ := mem_endedBy hother
    simp only [Bool.and_eq_true, decide_eq_true_eq] at hp hp'
    rw [← hsequence, ← hsequence']
    exact h.keys signal hsignal signal' hsignal' (hp.1.trans hp'.1.symm) (hp.2.trans hp'.2.symm)
  match w.endedBy fun signal => signal.runId = runId && signal.idempotencyKey = key,
    hpairwise, hone with
  | [], _, _ => exact Nat.zero_le 1
  | [_], _, _ => exact Nat.le_refl 1
  | first :: second :: _, hpairwise, hone =>
    have hlt := rel_of_pairwise_cons hpairwise mem_cons_self
    have heq := hone first mem_cons_self second
      (mem_cons_of_mem _ mem_cons_self)
    omega

theorem consumed_pairwise (h : Delivery E w) (runId : RunId) (name : Text) :
    (w.consumed runId name).Pairwise (· < ·) := by
  refine pairwise_map.mpr (endedBy_pairwise h fun signal other hp hp' => ?_)
  simp only [Bool.and_eq_true, decide_eq_true_eq] at hp hp'
  exact .inl ⟨hp.1.trans hp'.1.symm, hp.2.trans hp'.2.symm⟩

/-- What was consumed of a name is before what waits of it. -/
theorem consumed_lt_buffered (h : Delivery E w) (hsignal : signal ∈ w.signals)
    (hrun : signal.runId = runId) (hname : signal.signalName = name)
    (hbuffered : signal.status = .buffered) :
    ∀ sequence ∈ w.consumed runId name, sequence < signal.sequence := by
  intro sequence hconsumed
  obtain ⟨ended, hended, rfl⟩ := mem_map.mp hconsumed
  obtain ⟨hentry, other, hother, hsequence, hp⟩ := mem_endedBy hended
  simp only [Bool.and_eq_true, decide_eq_true_eq] at hp
  rw [← hsequence] at hentry ⊢
  exact h.consumed_lt hsignal hbuffered hother
    ⟨hrun.trans hp.1.symm, hname.trans hp.2.symm⟩ hentry

/--
**Signals are delivered once, and none is missed.** In every state that any operations reach:
at most one pause was resumed by the signal of a key; a pause has at most one end, and is open
until it has it; the signals of a name were consumed in the order of their numbers, each before
any that still waits; and no open pause has a buffered signal of its name.
-/
theorem signals_once {now : Nat} (h : Reach (step values) anyEvent (empty now) w) :
    (∀ runId key, (w.resumedBy runId key).length ≤ 1) ∧ ((w.resolved.map Prod.fst).Nodup ∧
      ∀ pause ∈ w.pauses, pause.status = .opened ↔ pause.id ∉ w.resolved.map Prod.fst) ∧
    (∀ runId name, (w.consumed runId name).Pairwise (· < ·) ∧
      ∀ signal ∈ w.signals, signal.runId = runId → signal.signalName = name →
        signal.status = .buffered → ∀ sequence ∈ w.consumed runId name,
          sequence < signal.sequence) ∧
    ∀ pause ∈ w.pauses, pause.status = .opened → ∀ signal ∈ w.signals,
      signal.runId = pause.runId → pause.signalName = some signal.signalName →
        signal.status ≠ .buffered := by
  have hinv := delivery_reachable h
  exact ⟨resumedBy_length hinv, ⟨hinv.resolvedOnce, hinv.open_iff⟩,
    fun runId name => ⟨consumed_pairwise hinv runId name, fun signal => consumed_lt_buffered hinv⟩,
    fun pause hpause hopen => hinv.noneMissed pause hpause hopen id⟩

def plainValues : Values := ⟨fun _ => "", fun _ => "", fun _ => 0, id, fun _ => some 0⟩

/-- One signal comes before its pause, and the next while a pause waits. -/
def signaledRun : List Action :=
  [.start [⟨.boundary, none⟩, ⟨.boundary, none⟩] .null,
    .signalByKey 0 (Text.ofString "go") (Text.ofString "first") .null,
    .beginAttempt 0 0 true .boundary,
    .suspendForPause 0 true { signal := some (Text.ofString "go") },
    .beginAttempt 0 1 true .boundary,
    .suspendForPause 1 true { signal := some (Text.ofString "go") },
    .signalByKey 0 (Text.ofString "go") (Text.ofString "second") .null]

theorem signals_once_signaledRun : ∃ w, exec (step plainValues) (empty 0) signaledRun = some w ∧
      w.resolved = [(0, .signal 0), (1, .signal 1)] ∧
      ∀ runId key, (w.resumedBy runId key).length ≤ 1 := by
  have hrun : (exec (step plainValues) (empty 0) signaledRun).map World.resolved =
      some [(0, .signal 0), (1, .signal 1)] := by
    decide +kernel
  obtain ⟨w, hw, hresolved⟩ := Option.map_eq_some_iff.mp hrun
  exact ⟨w, hw, hresolved, (signals_once (reach_of_exec hw)).1⟩

end Catamorphic.Execution.Coordinator
