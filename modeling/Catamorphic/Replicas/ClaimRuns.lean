import Catamorphic.Lib.Table
import Catamorphic.Replicas.Claims

/-!
# A claim is exclusive while its work runs

A renewal sets the timer of a call from its dispatch, and the row from when it is carried out, so
the timer is never the later one of the two. The answer of a take sets it from when it arrives:
such a timer is what `Careful` is about.
-/

namespace Catamorphic.Replicas.Claims

open Function Option

variable {request : Request} {held : Bool}

/-! ## Holds -/

section Holds

variable {hold : Hold} {now deadline : Time}

/-- An operation that runs came to nothing yet, or its call lost the claim. -/
def Hold.Ok (hold : Hold) : Prop :=
  hold.running = true → hold.result = if hold.aborted then some .lost else none

theorem Hold.Ok.loseClaim (h : hold.Ok) : hold.loseClaim.Ok := by
  intro hrunning
  unfold Hold.loseClaim at hrunning ⊢
  split at hrunning
  · rename_i haborted
    rw [if_pos haborted]
    exact h hrunning
  · rename_i haborted
    rw [if_neg haborted, if_pos rfl]
    have hresult := h hrunning
    rw [if_neg haborted] at hresult
    rw [hresult]
    rfl

theorem Hold.loseClaim_aborted : hold.loseClaim.aborted = true := by
  unfold Hold.loseClaim
  split
  · assumption
  · rfl

/-- A timer that has not fired is there for later. -/
theorem Hold.elapse_cases (hold : Hold) (now : Time) :
    (hold.elapse now = hold ∧ ∀ t, hold.expiry = some t → now < t) ∨
      hold.elapse now = { hold with expiry := none }.loseClaim := by
  unfold Hold.elapse
  split
  · exact .inr rfl
  · rename_i hdue
    refine .inl ⟨rfl, fun t ht => ?_⟩
    rw [ht, any_some, decide_eq_true_eq] at hdue
    exact Nat.lt_of_not_le hdue

theorem Hold.Ok.elapse (h : hold.Ok) : (hold.elapse now).Ok := by
  rcases Hold.elapse_cases hold now with ⟨heq, -⟩ | heq
  · rw [heq]
    exact h
  · rw [heq]
    exact Hold.Ok.loseClaim h

/-- Who goes on after the timers fired has not changed, and its timer is still to fire. -/
theorem Hold.elapse_live (h : (hold.elapse now).aborted = false) :
    hold.elapse now = hold ∧ ∀ t, hold.expiry = some t → now < t := by
  rcases Hold.elapse_cases hold now with hsame | heq
  · exact hsame
  · rw [heq, Hold.loseClaim_aborted] at h
    cases h

theorem Hold.Ok.holdUntil (h : hold.Ok) : (hold.holdUntil deadline now).Ok := by
  have h' : Hold.Ok { hold with expiry := some deadline } := h
  exact h'.elapse

theorem Hold.ok_hold {call : Call} {takenAt : Time} : (call.hold now takenAt).Ok :=
  Hold.Ok.holdUntil fun _ => rfl

theorem Hold.ok_settle : hold.settle.Ok := fun hrunning => by cases hrunning

theorem Hold.Ok.answered {call : Call} (h : hold.Ok) :
    (hold.answered call request held now).Ok := by
  unfold Hold.answered
  dsimp only
  split
  · exact Hold.Ok.holdUntil h
  · exact Hold.Ok.loseClaim h

end Holds

/-! ## The invariant -/

/-- A take of a call that was not refused, so far. -/
def World.Open (w : World) (r : RequestId) (c : CallId) : Prop :=
  ∃ request, w.requests r = some request ∧ request.call = c ∧ request.kind = .take ∧
    ∀ answer, request.answer = some answer → answer.held = true

/-- A call gave its claim back. -/
def World.Released (w : World) (c : CallId) : Prop :=
  ∃ r request, w.requests r = some request ∧ request.call = c ∧ request.kind = .release

/-- A take of a call was granted. -/
def World.Taken (w : World) (c : CallId) : Prop :=
  ∃ r request answer, w.requests r = some request ∧ request.call = c ∧ request.kind = .take ∧
    request.answer = some answer ∧ answer.held = true

/-- The requests of the calls. -/
structure Requests (w : World) : Prop where
  fresh : ∀ r request, w.requests r = some request → r < w.sent ∧ request.call < w.begun
  ttl : ∀ r r' request request', w.requests r = some request → w.requests r' = some request' →
    request.call = request'.call → request.ttl = request'.ttl
  answered : ∀ r request answer, w.requests r = some request → request.answer = some answer →
    request.dispatched ≤ answer.executedAt ∧ answer.executedAt ≤ w.clock
  dispatched : ∀ r request, w.requests r = some request → request.dispatched ≤ w.clock
  single : ∀ c r r', w.Open r c → w.Open r' c → r = r'

/-- The row, and the requests behind it. -/
structure Rows (w : World) : Prop extends Requests w where
  /-- The row lasts as long as the last request that set it. -/
  granted : ∀ r request answer, w.requests r = some request → request.kind ≠ .release →
    request.answer = some answer → answer.held = true → ∀ row, w.row = some row →
      row.holder = request.call → answer.executedAt + request.ttl ≤ row.expiresAt
  /-- It lasts no longer than if it were set now. -/
  bounded : ∀ row, w.row = some row →
    ∃ r request, w.requests r = some request ∧ request.call = row.holder ∧
      row.expiresAt ≤ w.clock + request.ttl
  holder : ∀ row, w.row = some row → w.last = some row.holder
  last : ∀ c, w.last = some c → (∃ row, w.row = some row ∧ row.holder = c) ∨ w.Released c
  taken : ∀ c, w.last = some c ∨ w.overtaken c = true → w.Taken c
  overtaken : ∀ c, w.overtaken c = true → w.last ≠ some c

/-- An operation runs under the claim: its timer is still to fire, and before the row lapses
where a renewal set it. -/
structure Live (w : World) (c : CallId) (ttl : Time) (hold : Hold) : Prop where
  last : w.last = some c
  row : ∃ row, w.row = some row ∧ row.holder = c ∧ hold.takenAt + ttl ≤ row.expiresAt ∧
    (hold.renewed = true → ∀ t, hold.expiry = some t → t ≤ row.expiresAt)
  timer : ∃ t, hold.expiry = some t ∧ w.clock < t
  unreleased : ¬w.Released c

/-- What holds of a call in its phase. -/
def PhaseOk (w : World) (c : CallId) (ttl : Time) : Phase → Prop
  | .taking r =>
    (∃ request, w.requests r = some request ∧ request.call = c ∧ request.kind = .take) ∧
      (∀ r', w.Open r' c → r' = r) ∧ ¬w.Released c
  | .polling _ => (∀ r, ¬w.Open r c) ∧ ¬w.Released c
  | .holding hold =>
    hold.Ok ∧ w.Taken c ∧
      (∀ r, hold.renewing = some r →
        ∃ request, w.requests r = some request ∧ request.call = c ∧ request.kind = .renew) ∧
      (hold.running = true → hold.aborted = false → Live w c ttl hold) ∧
        (w.overtaken c = true → hold.result = some .lost)

structure CallOk (w : World) (c : CallId) (call : Call) : Prop where
  fresh : c < w.begun
  ttl : ∀ r request, w.requests r = some request → request.call = c → request.ttl = call.ttl
  phase : PhaseOk w c call.ttl call.phase

structure Sound (w : World) : Prop where
  rows : Rows w
  calls : ∀ c call, w.calls c = some call → CallOk w c call

theorem sound_start (clock : Time) : Sound (start clock) := by
  refine ⟨⟨⟨?_, ?_, ?_, ?_, ?_⟩, ?_, ?_, ?_, ?_, ?_, ?_⟩, ?_⟩
  · intro r request h
    cases h
  · intro r r' request request' h
    cases h
  · intro r request answer h
    cases h
  · intro r request h
    cases h
  · rintro c r r' ⟨request, h, -⟩
    cases h
  · intro r request answer h
    cases h
  · intro row h
    cases h
  · intro row h
    cases h
  · intro c h
    cases h
  · rintro c (h | h) <;> cases h
  · intro c h
    cases h
  · intro c call h
    cases h

variable {w : World}

/-! ## What a state shows -/

theorem Sound.exclusive (h : Sound w) : w.Exclusive := by
  intro c call hold hcall hphase hrunning haborted
  have hok := (h.calls c call hcall).phase
  rw [hphase] at hok
  exact (hok.2.2.2.1 hrunning haborted).last

theorem Sound.rejects (h : Sound w) : w.Rejects := by
  intro c call hold hcall hphase hover
  have hok := (h.calls c call hcall).phase
  rw [hphase] at hok
  exact hok.2.2.2.2 hover

variable {ttl : Time} {phase : Phase}

/-! ## Steps of a call -/

section Calls

variable {w w' : World} {c : CallId} {call : Call}

/-- What a phase needs is still so when only calls changed. -/
theorem PhaseOk.calls {calls : CallId → Option Call} (h : PhaseOk w c ttl phase) :
    PhaseOk { w with calls } c ttl phase := by
  cases phase with
  | taking r => exact h
  | polling t => exact h
  | holding hold =>
    obtain ⟨hok, htaken, hrenewing, hlive, hover⟩ := h
    refine ⟨hok, htaken, hrenewing, fun hrunning haborted => ?_, hover⟩
    have hlive := hlive hrunning haborted
    exact { hlive with }

theorem Rows.calls {calls : CallId → Option Call} (h : Rows w) : Rows { w with calls } :=
  ⟨{ h with }, h.granted, h.bounded, h.holder, h.last,
    h.taken, h.overtaken⟩

theorem Sound.setCall (h : Sound w) (hcall : CallOk w c call) : Sound (w.setCall c call) := by
  refine ⟨h.rows.calls, fun c' call' hcall' => ?_⟩
  rcases Table.update_some hcall' with ⟨rfl, rfl⟩ | ⟨-, hcall'⟩
  · exact ⟨hcall.fresh, hcall.ttl, hcall.phase.calls⟩
  · have hok := h.calls c' call' hcall'
    exact ⟨hok.fresh, hok.ttl, hok.phase.calls⟩

theorem Sound.endCall (h : Sound w) : Sound (w.endCall c) := by
  refine ⟨h.rows.calls, fun c' call' hcall' => ?_⟩
  rcases Table.update_none hcall' with ⟨-, hcall'⟩
  have hok := h.calls c' call' hcall'
  exact ⟨hok.fresh, hok.ttl, hok.phase.calls⟩

/-- A call goes on with another hold. -/
theorem Sound.setHold {hold hold' : Hold} (h : Sound w) (hcall : w.calls c = some call)
    (hphase : call.phase = .holding hold) (hok : hold'.Ok)
    (hrenewing : ∀ r, hold'.renewing = some r → hold.renewing = some r)
    (hlive : hold'.running = true → hold'.aborted = false →
      Live w c call.ttl hold → Live w c call.ttl hold')
    (hkeeps : hold'.running = true → hold'.aborted = false →
      hold.running = true ∧ hold.aborted = false)
    (hlost : hold.result = some .lost → hold'.result = some .lost) :
    Sound (w.setHold c call hold') := by
  have hcallOk := h.calls c call hcall
  have hphaseOk := hcallOk.phase
  rw [hphase] at hphaseOk
  obtain ⟨-, htaken, hrenewing', hlive', hover⟩ := hphaseOk
  refine h.setCall ⟨hcallOk.fresh, hcallOk.ttl, hok, htaken,
    fun r hr => hrenewing' r (hrenewing r hr), fun hrunning haborted => ?_,
    fun ho => hlost (hover ho)⟩
  obtain ⟨hrunning', haborted'⟩ := hkeeps hrunning haborted
  exact hlive hrunning haborted (hlive' hrunning' haborted')

theorem Hold.lost_settle {hold : Hold} (h : hold.result = some .lost) :
    hold.settle.result = some .lost := by
  rw [Hold.settle, h]
  rfl

/-- The operation settles. -/
theorem Sound.settle {hold : Hold} (h : Sound w) (hcall : w.calls c = some call)
    (hphase : call.phase = .holding hold) : Sound (w.setHold c call hold.settle) := by
  refine h.setHold hcall hphase Hold.ok_settle (fun r hr => hr) (fun hrunning => ?_)
    (fun hrunning => ?_) Hold.lost_settle
  · cases hrunning
  · cases hrunning

end Calls

/-! ## Time -/

theorem Hold.lost_loseClaim {hold : Hold} (h : hold.result = some .lost) :
    hold.loseClaim.result = some .lost := by
  unfold Hold.loseClaim
  split
  · exact h
  · rw [h]
    rfl

variable {now : Time}

theorem Hold.lost_elapse {hold : Hold} (h : hold.result = some .lost) :
    (hold.elapse now).result = some .lost := by
  rcases Hold.elapse_cases hold now with ⟨heq, -⟩ | heq
  · rw [heq]
    exact h
  · rw [heq]
    exact Hold.lost_loseClaim h

theorem Hold.renewing_loseClaim {hold : Hold} : hold.loseClaim.renewing = hold.renewing := by
  unfold Hold.loseClaim
  split <;> rfl

theorem Hold.renewing_elapse {hold : Hold} : (hold.elapse now).renewing = hold.renewing := by
  rcases Hold.elapse_cases hold now with ⟨heq, -⟩ | heq
  · rw [heq]
  · rw [heq]
    exact Hold.renewing_loseClaim

/-- **Time passes**: a timer that is due fires, and the others are still to. -/
theorem Sound.elapse (h : Sound w) (hnow : w.clock ≤ now) : Sound (w.elapse now) := by
  refine ⟨?_, fun c call' hcall' => ?_⟩
  · refine ⟨⟨h.rows.fresh, h.rows.ttl, fun r request answer hr ha => ?_, fun r request hr => ?_,
      h.rows.single⟩, h.rows.granted, fun row hrow => ?_, h.rows.holder, h.rows.last,
      h.rows.taken, h.rows.overtaken⟩
    · obtain ⟨hdispatched, hexecuted⟩ := h.rows.answered r request answer hr ha
      exact ⟨hdispatched, Nat.le_trans hexecuted hnow⟩
    · exact Nat.le_trans (h.rows.dispatched r request hr) hnow
    · obtain ⟨r, request, hr, hc, hle⟩ := h.rows.bounded row hrow
      exact ⟨r, request, hr, hc, Nat.le_trans hle (Nat.add_le_add_right hnow _)⟩
  · obtain ⟨call, hcall, rfl⟩ := map_eq_some_iff.mp hcall'
    obtain ⟨hfresh, httl, hphase⟩ := h.calls c call hcall
    cases hp : call.phase with
    | taking r | polling t =>
      rw [hp] at hphase
      exact ⟨hfresh, httl, by rw [hp]; exact hphase⟩
    | holding hold =>
      rw [hp] at hphase
      obtain ⟨hok, htaken, hrenewing, hlive, hover⟩ := hphase
      refine ⟨hfresh, httl, hok.elapse, htaken, fun r hr => ?_, fun hrunning haborted => ?_,
        fun ho => Hold.lost_elapse (hover ho)⟩
      · rw [Hold.renewing_elapse] at hr
        exact hrenewing r hr
      · obtain ⟨hsame, htimer⟩ := Hold.elapse_live haborted
        rw [hsame] at hrunning haborted ⊢
        have hlive := hlive hrunning haborted
        obtain ⟨t, ht, -⟩ := hlive.timer
        exact ⟨hlive.last, hlive.row, ⟨t, ht, htimer t ht⟩, hlive.unreleased⟩

variable {kind : RequestKind} {r : RequestId} {c' : CallId}

/-! ## Requests -/

section Requests

variable {w w' : World} {c : CallId} {call : Call}

/-- What a phase needs of the requests of its call, and of the row. -/
theorem PhaseOk.frame (h : PhaseOk w c ttl phase)
    (hkeep : ∀ r request, w.requests r = some request → request.call = c →
      ∃ request', w'.requests r = some request' ∧ request'.call = c ∧
        request'.kind = request.kind) (hopen : ∀ r, w'.Open r c → w.Open r c)
    (hreleased : w'.Released c → w.Released c) (htaken : w.Taken c → w'.Taken c)
    (hlive : ∀ hold, phase = .holding hold → hold.running = true → hold.aborted = false →
      Live w c ttl hold → Live w' c ttl hold)
    (hover : w'.overtaken c = true → w.overtaken c = true ∨
      ∀ hold, phase = .holding hold → hold.result = some .lost) : PhaseOk w' c ttl phase := by
  cases phase with
  | taking r =>
    obtain ⟨⟨request, hr, hc, hkind⟩, honly, hunreleased⟩ := h
    obtain ⟨request', hr', hc', hkind'⟩ := hkeep r request hr hc
    exact ⟨⟨request', hr', hc', hkind'.trans hkind⟩, fun r' ho => honly r' (hopen r' ho),
      fun hrel => hunreleased (hreleased hrel)⟩
  | polling t => exact ⟨fun r ho => h.1 r (hopen r ho), fun hrel => h.2 (hreleased hrel)⟩
  | holding hold =>
    obtain ⟨hok, htaken', hrenewing, hlive', hover'⟩ := h
    refine ⟨hok, htaken htaken', fun r hr => ?_, fun hrunning haborted =>
      hlive hold rfl hrunning haborted (hlive' hrunning haborted), fun ho => ?_⟩
    · obtain ⟨request, hr, hc, hkind⟩ := hrenewing r hr
      obtain ⟨request', hr', hc', hkind'⟩ := hkeep r request hr hc
      exact ⟨request', hr', hc', hkind'.trans hkind⟩
    · rcases hover ho with ho | hlost
      · exact hover' ho
      · exact hlost hold rfl

/-- A request is found after another one went on its way: it is that one, or was there. -/
theorem send_some (h : (w.send c kind ttl).requests r = some request) :
    r = w.sent ∧ request = ⟨c, kind, ttl, w.clock, none⟩ ∨
      r ≠ w.sent ∧ w.requests r = some request := by
  rcases Table.update_some h with ⟨rfl, rfl⟩ | ⟨hne, h⟩
  · exact .inl ⟨rfl, rfl⟩
  · exact .inr ⟨hne, h⟩

theorem send_of_some (h : Rows w) (hr : w.requests r = some request) :
    (w.send c kind ttl).requests r = some request := by
  have hne : r ≠ w.sent := Nat.ne_of_lt (h.fresh r request hr).1
  exact (update_of_ne hne ..).trans hr

/-- A new take of a call is its only open one. -/
theorem open_send (h : (w.send c kind ttl).Open r c') :
    r = w.sent ∧ c' = c ∧ kind = .take ∨ r ≠ w.sent ∧ w.Open r c' := by
  obtain ⟨request, hr, hc, hkind, hanswer⟩ := h
  rcases send_some hr with ⟨rfl, rfl⟩ | ⟨hne, hr⟩
  · exact .inl ⟨rfl, hc.symm, hkind⟩
  · exact .inr ⟨hne, request, hr, hc, hkind, hanswer⟩

theorem released_send (h : (w.send c kind ttl).Released c') :
    c' = c ∧ kind = .release ∨ w.Released c' := by
  obtain ⟨r, request, hr, hc, hkind⟩ := h
  rcases send_some hr with ⟨-, rfl⟩ | ⟨-, hr⟩
  · exact .inl ⟨hc.symm, hkind⟩
  · exact .inr ⟨r, request, hr, hc, hkind⟩

theorem Rows.taken_send (h : Rows w) (ht : w.Taken c') : (w.send c kind ttl).Taken c' := by
  obtain ⟨r, request, answer, hr, hrest⟩ := ht
  exact ⟨r, request, answer, send_of_some h hr, hrest⟩

/-- A request goes on its way: a take when no other one is open. -/
theorem Requests.send (h : Rows w) (hc : c < w.begun)
    (httl : ∀ r request, w.requests r = some request → request.call = c → request.ttl = ttl)
    (htake : kind = .take → ∀ r, ¬w.Open r c) : Requests (w.send c kind ttl) := by
  refine ⟨fun r request hr => ?_, fun r r' request request' hr hr' hcall => ?_,
    fun r request answer hr ha => ?_, fun r request hr => ?_, fun c' r r' ho ho' => ?_⟩
  · rcases send_some hr with ⟨rfl, rfl⟩ | ⟨-, hr⟩
    · exact ⟨Nat.lt_succ_self _, hc⟩
    · obtain ⟨hlt, hbegun⟩ := h.fresh r request hr
      exact ⟨Nat.lt_succ_of_lt hlt, hbegun⟩
  · rcases send_some hr with ⟨-, rfl⟩ | ⟨-, hr⟩ <;> rcases send_some hr' with ⟨-, rfl⟩ | ⟨-, hr'⟩
    · rfl
    · exact (httl r' request' hr' hcall.symm).symm
    · exact httl r request hr hcall
    · exact h.ttl r r' request request' hr hr' hcall
  · rcases send_some hr with ⟨-, rfl⟩ | ⟨-, hr⟩
    · cases ha
    · exact h.answered r request answer hr ha
  · rcases send_some hr with ⟨-, rfl⟩ | ⟨-, hr⟩
    · exact Nat.le_refl _
    · exact h.dispatched r request hr
  · rcases open_send ho with ⟨rfl, rfl, hkind⟩ | ⟨-, ho⟩ <;>
      rcases open_send ho' with ⟨rfl, hcc, hkind'⟩ | ⟨-, ho'⟩
    · rfl
    · exact absurd ho' (htake hkind r')
    · exact absurd (hcc ▸ ho) (htake hkind' r)
    · exact h.single c' r r' ho ho'

theorem Rows.send (h : Rows w) (hrequests : Requests (w.send c kind ttl)) :
    Rows (w.send c kind ttl) := by
  refine ⟨hrequests, fun r request answer hr hkind ha hheld => ?_, fun row hrow => ?_, h.holder,
    fun c' hlast => ?_, fun c' hc' => h.taken_send (h.taken c' hc'), h.overtaken⟩
  · rcases send_some hr with ⟨-, rfl⟩ | ⟨-, hr⟩
    · cases ha
    · exact h.granted r request answer hr hkind ha hheld
  · obtain ⟨r, request, hr, hrest⟩ := h.bounded row hrow
    exact ⟨r, request, send_of_some h hr, hrest⟩
  · rcases h.last c' hlast with hrow | ⟨r, request, hr, hrest⟩
    · exact .inl hrow
    · exact .inr ⟨r, request, send_of_some h hr, hrest⟩

/-- A call sends a request and goes on. -/
theorem Sound.sendCall (h : Sound w) (hc : c < w.begun)
    (httl : ∀ r request, w.requests r = some request → request.call = c → request.ttl = ttl)
    (htake : kind = .take → ∀ r, ¬w.Open r c) (hcall : CallOk (w.send c kind ttl) c call) :
    Sound ((w.setCall c call).send c kind ttl) := by
  have hrows : Rows (w.send c kind ttl) := h.rows.send (Requests.send h.rows hc httl htake)
  refine ⟨hrows.calls, fun c' call' hcall' => ?_⟩
  rcases Table.update_some hcall' with ⟨rfl, rfl⟩ | ⟨hne, hcall'⟩
  · exact ⟨hcall.fresh, hcall.ttl, hcall.phase.calls⟩
  · have hok := h.calls c' call' hcall'
    have hreleased (hrel : (w.send c kind ttl).Released c') : w.Released c' := by
      rcases released_send hrel with ⟨hcc, -⟩ | hrel
      · exact absurd hcc hne
      · exact hrel
    have hphase : PhaseOk (w.send c kind ttl) c' call'.ttl call'.phase := by
      refine hok.phase.frame (fun r request hr hc' => ⟨request, send_of_some h.rows hr, hc', rfl⟩)
        (fun r ho => ?_) hreleased h.rows.taken_send (fun hold _ _ _ hlive => ?_) .inl
      · rcases open_send ho with ⟨-, hcc, -⟩ | ⟨-, ho⟩
        · exact absurd hcc hne
        · exact ho
      · exact ⟨hlive.last, hlive.row, hlive.timer, fun hrel => hlive.unreleased (hreleased hrel)⟩
    refine ⟨hok.fresh, fun r request hr hc' => ?_, hphase.calls⟩
    rcases send_some hr with ⟨-, rfl⟩ | ⟨-, hr⟩
    · exact absurd hc'.symm hne
    · exact hok.ttl r request hr hc'

end Requests

variable {r' : RequestId} {request' : Request}

/-! ## The database answers -/

section Answers

variable {w : World} {c : CallId} {r : RequestId} {request : Request} {overtaken : CallId → Bool}
  {last : Option CallId}

/-- A request is found after one was carried out: it is that one, or was there. -/
theorem setAnswer_some (h : (w.setAnswer r request held).requests r' = some request') :
    r' = r ∧ request' = { request with answer := some ⟨held, w.clock⟩ } ∨
      r' ≠ r ∧ w.requests r' = some request' := Table.update_some h

/-- Each request stays, but for its answer. -/
theorem setAnswer_of_some (held : Bool) (hr : w.requests r = some request)
    (h : w.requests r' = some request') :
    ∃ answer, (w.setAnswer r request held).requests r' = some { request' with answer } := by
  by_cases hrr : r' = r
  · subst hrr
    cases hr.symm.trans h
    exact ⟨_, update_self ..⟩
  · exact ⟨request'.answer, (update_of_ne hrr ..).trans h⟩

section

variable (hr : w.requests r = some request)
include hr

theorem open_setAnswer (hpending : request.answer = none)
    (h : (w.setAnswer r request held).Open r' c) : w.Open r' c := by
  obtain ⟨request', hr', hc, hkind, hanswer⟩ := h
  rcases setAnswer_some hr' with ⟨rfl, rfl⟩ | ⟨-, hr'⟩
  · refine ⟨request, hr, hc, hkind, fun answer ha => ?_⟩
    rw [hpending] at ha
    cases ha
  · exact ⟨request', hr', hc, hkind, hanswer⟩

theorem released_setAnswer : (w.setAnswer r request held).Released c ↔ w.Released c := by
  constructor
  · rintro ⟨r', request', hr', hc, hkind⟩
    rcases setAnswer_some hr' with ⟨rfl, rfl⟩ | ⟨-, hr'⟩
    · exact ⟨_, request, hr, hc, hkind⟩
    · exact ⟨r', request', hr', hc, hkind⟩
  · rintro ⟨r', request', hr', hc, hkind⟩
    obtain ⟨answer, hr''⟩ := setAnswer_of_some held hr hr'
    exact ⟨r', _, hr'', hc, hkind⟩

theorem taken_setAnswer (hpending : request.answer = none)
    (h : w.Taken c) : (w.setAnswer r request held).Taken c := by
  obtain ⟨r', request', answer, hr', hc, hkind, ha, hheld⟩ := h
  have hne : r' ≠ r := by
    rintro rfl
    cases hr.symm.trans hr'
    rw [hpending] at ha
    cases ha
  exact ⟨r', request', answer, (update_of_ne hne ..).trans hr', hc, hkind, ha, hheld⟩

omit hr in
/-- A call whose take was granted has no other one under way. -/
theorem Rows.not_taken (h : Rows w) (hr : w.requests r = some request)
    (hkind : request.kind = .take) (hpending : request.answer = none) : ¬w.Taken request.call := by
  rintro ⟨r', request', answer, hr', hc, hkind', ha, hheld⟩
  have hopen : w.Open r request.call := ⟨request, hr, rfl, hkind, fun answer ha => by
    rw [hpending] at ha
    cases ha⟩
  have hopen' : w.Open r' request.call := ⟨request', hr', hc, hkind', fun answer' ha' => by
    cases ha.symm.trans ha'
    exact hheld⟩
  have hrr := h.single _ _ _ hopen hopen'
  subst hrr
  cases hr.symm.trans hr'
  rw [hpending] at ha
  cases ha

/-- What the answer of a request leaves of the requests. -/
theorem answer_requests (hr' : (w.setAnswer r request held).requests r' = some request') :
    ∃ old, w.requests r' = some old ∧ request'.call = old.call ∧ request'.kind = old.kind ∧
      request'.ttl = old.ttl ∧ request'.dispatched = old.dispatched ∧
        ∀ answer, request'.answer = some answer →
          old.answer = some answer ∨ r' = r ∧ answer = ⟨held, w.clock⟩ := by
  rcases setAnswer_some hr' with ⟨rfl, rfl⟩ | ⟨-, hr'⟩
  · exact ⟨request, hr, rfl, rfl, rfl, rfl, fun answer ha => .inr ⟨rfl, (some.inj ha).symm⟩⟩
  · exact ⟨request', hr', rfl, rfl, rfl, rfl, fun answer => .inl⟩

end

theorem Requests.answer (h : Requests w) (hr : w.requests r = some request)
    (hpending : request.answer = none) : Requests (w.setAnswer r request held) := by
  refine ⟨fun r' request' hr' => ?_, fun r₁ r₂ request₁ request₂ hr₁ hr₂ hcall => ?_,
    fun r' request' answer hr' ha => ?_, fun r' request' hr' => ?_,
    fun c r₁ r₂ ho₁ ho₂ => h.single c r₁ r₂ (open_setAnswer hr hpending ho₁)
      (open_setAnswer hr hpending ho₂)⟩
  · obtain ⟨old, hold, hcall, -⟩ := answer_requests hr hr'
    rw [hcall]
    exact h.fresh r' old hold
  · obtain ⟨old₁, hold₁, hcall₁, -, httl₁, -⟩ := answer_requests hr hr₁
    obtain ⟨old₂, hold₂, hcall₂, -, httl₂, -⟩ := answer_requests hr hr₂
    rw [httl₁, httl₂]
    exact h.ttl r₁ r₂ old₁ old₂ hold₁ hold₂ (by rw [← hcall₁, ← hcall₂, hcall])
  · obtain ⟨old, hold, -, -, -, hdispatched, hanswer⟩ := answer_requests hr hr'
    rw [hdispatched]
    rcases hanswer answer ha with ha | ⟨-, rfl⟩
    · exact h.answered r' old answer hold ha
    · exact ⟨h.dispatched r' old hold, Nat.le_refl _⟩
  · obtain ⟨old, hold, -, -, -, hdispatched, -⟩ := answer_requests hr hr'
    rw [hdispatched]
    exact h.dispatched r' old hold

/-- Only the row changes, and who has it. -/
theorem Requests.row {row : Option Row}
    (h : Requests w) : Requests { w with row, last, overtaken } :=
  { h with }

/-- A request that changes the row to what it says. -/
theorem Rows.set (h : Rows w) (hr : w.requests r = some request) (hpending : request.answer = none)
    (hlast : last = some request.call) (htaken : request.kind = .take ∨ w.Taken request.call)
    (hover : ∀ c, overtaken c = true → w.overtaken c = true ∨ w.last = some c)
    (hself : overtaken request.call = false) :
    Rows ({ w with row := some ⟨request.call, w.clock + request.ttl⟩, last, overtaken }.setAnswer
      r request true) := by
  refine ⟨h.toRequests.row.answer hr hpending,
    fun r' request' answer hr' _ ha hheld row hrow hholder => ?_, fun row hrow => ?_,
    fun row hrow => ?_, fun c hc => ?_, fun c hc => ?_, fun c hc hlast' => ?_⟩
  · -- Whoever set the row before did so earlier.
    obtain ⟨old, hold, hcall, -, httl, -, hanswer⟩ := answer_requests hr hr'
    cases hrow
    have hle : answer.executedAt ≤ w.clock := by
      rcases hanswer answer ha with ha | ⟨-, rfl⟩
      · exact (h.answered r' old answer hold ha).2
      · exact Nat.le_refl _
    have hsame : old.ttl = request.ttl := h.ttl r' r old request hold hr (hcall ▸ hholder.symm)
    show answer.executedAt + request'.ttl ≤ w.clock + request.ttl
    rw [httl, hsame]
    exact Nat.add_le_add_right hle _
  · cases hrow
    obtain ⟨answer, hr'⟩ := setAnswer_of_some true hr hr
    exact ⟨r, _, hr', rfl, Nat.le_refl _⟩
  · cases hrow
    exact hlast
  · cases hlast.symm.trans hc
    exact .inl ⟨_, rfl, rfl⟩
  · have hown : World.Taken ({ w with
        row := some ⟨request.call, w.clock + request.ttl⟩, last, overtaken }.setAnswer r request
          true) request.call := by
      rcases htaken with htake | htaken
      · exact ⟨r, _, _, update_self .., rfl, htake, rfl, rfl⟩
      · exact taken_setAnswer hr hpending htaken
    rcases hc with hc | hc
    · cases hlast.symm.trans hc
      exact hown
    · exact taken_setAnswer hr hpending (h.taken c (hover c hc).symm)
  · cases hlast.symm.trans hlast'
    cases hself.symm.trans hc

/-- A request that is refused, or that only takes the row away. -/
theorem Rows.keep {row : Option Row} {held : Bool} (h : Rows w)
    (hr : w.requests r = some request) (hpending : request.answer = none)
    (hheld : held = true → request.kind = .release)
    (hrow : ∀ row', row = some row' → w.row = some row')
    (hgone : ∀ row', w.row = some row' → row = some row' ∨ w.Released row'.holder) :
    Rows ({ w with row }.setAnswer r request held) := by
  refine ⟨h.toRequests.row.answer hr hpending,
    fun r' request' answer hr' hkind' ha hheld' row' hrow' hholder => ?_, fun row' hrow' => ?_,
    fun row' hrow' => h.holder row' (hrow row' hrow'), fun c hc => ?_,
    fun c hc => taken_setAnswer hr hpending (h.taken c hc), h.overtaken⟩
  · obtain ⟨old, hold, hcall, hkind, httl, -, hanswer⟩ := answer_requests hr hr'
    rw [hkind] at hkind'
    rcases hanswer answer ha with ha | ⟨rfl, rfl⟩
    · rw [httl]
      exact h.granted r' old answer hold hkind' ha hheld' row' (hrow row' hrow') (hcall ▸ hholder)
    · cases hr.symm.trans hold
      exact absurd (hheld hheld') hkind'
  · obtain ⟨r', request', hr', hc, hle⟩ := h.bounded row' (hrow row' hrow')
    obtain ⟨answer, hr''⟩ := setAnswer_of_some held hr hr'
    exact ⟨r', _, hr'', hc, hle⟩
  · rcases h.last c hc with ⟨row', hrow', rfl⟩ | hrel
    · rcases hgone row' hrow' with hkept | hrel
      · exact .inl ⟨row', hkept, rfl⟩
      · exact .inr ((released_setAnswer hr).mpr hrel)
    · exact .inr ((released_setAnswer hr).mpr hrel)

section

variable (h : Sound w) (hr : w.requests r = some request) (hpending : request.answer = none)
include h hr hpending

/-- What is left to see for the calls. -/
theorem Sound.answered {row : Option Row}
    (hrows : Rows ({ w with row, last, overtaken }.setAnswer r request held))
    (hlive : ∀ c call hold, w.calls c = some call → call.phase = .holding hold →
      hold.running = true → hold.aborted = false → Live w c call.ttl hold →
        Live ({ w with row, last, overtaken }.setAnswer r request held) c call.ttl hold)
    (hover : ∀ c call, w.calls c = some call → overtaken c = true → w.overtaken c = true ∨
      ∀ hold, call.phase = .holding hold → hold.result = some .lost) :
    Sound ({ w with row, last, overtaken }.setAnswer r request held) := by
  refine ⟨hrows, fun c call hcall => ?_⟩
  obtain ⟨hfresh, httl, hphase⟩ := h.calls c call hcall
  refine ⟨hfresh, fun r' request' hr' hc => ?_, hphase.frame (fun r' request' hr' hc => ?_)
    (fun r' => open_setAnswer hr hpending) (released_setAnswer hr).mp
    (taken_setAnswer hr hpending) (fun hold => hlive c call hold hcall) (hover c call hcall)⟩
  · obtain ⟨old, hold, hcall', -, httl', -⟩ := answer_requests hr hr'
    rw [httl']
    exact httl r' old hold (hcall' ▸ hc)
  · obtain ⟨answer, hr''⟩ := setAnswer_of_some held hr hr'
    exact ⟨_, hr'', hc, rfl⟩

/-- A request that changes nothing of the row. -/
theorem Sound.refused (hheld : held = true → request.kind = .release) :
    Sound (w.setAnswer r request held) := by
  refine Sound.answered h hr hpending (h.rows.keep hr hpending hheld (fun _ hrow => hrow)
    fun _ => .inl) (fun c call hold _ _ _ _ hlive => ?_) fun _ _ _ => .inl
  exact ⟨hlive.last, hlive.row, hlive.timer,
    fun hrel => hlive.unreleased ((released_setAnswer hr).mp hrel)⟩

omit h hr hpending in
/-- **No operation runs when a claim takes effect.** A timer that a renewal set has fired by the
time the row lapses. -/
theorem not_live {call : Call} {hold : Hold} (hfree : w.row.all (·.expiresAt ≤ w.clock) = true)
    (hlate : hold.renewed = false → hold.expiry.all (· ≤ hold.takenAt + call.ttl) = true)
    (hlive : Live w c call.ttl hold) : False := by
  obtain ⟨row, hrow, -, htaken, hrenewed⟩ := hlive.row
  obtain ⟨t, ht, htimer⟩ := hlive.timer
  rw [hrow, all_some, decide_eq_true_eq] at hfree
  cases hr : hold.renewed with
  | true =>
    exact absurd (Nat.le_trans (hrenewed hr t ht) hfree) (Nat.not_le_of_lt htimer)
  | false =>
    have hle := hlate hr
    rw [ht, all_some, decide_eq_true_eq] at hle
    exact absurd (Nat.le_trans hle (Nat.le_trans htaken hfree)) (Nat.not_le_of_lt htimer)

/-- **A take is carried out.** -/
theorem Sound.executeTake (hkind : request.kind = .take)
    (hok : Careful w (.execute r)) : Sound (w.execute r request) := by
  have hlate := hok request hr hkind
  unfold World.execute
  rw [hkind]
  have hgranted (hfree : w.row.all (·.expiresAt ≤ w.clock) = true) :
      Sound ({ w with row := some ⟨request.call, w.clock + request.ttl⟩ }.setAnswer r request
        true |>.takeover request.call) := by
    have hnew : ¬w.Taken request.call := h.rows.not_taken hr hkind hpending
    have hover (c : CallId) (hc : (w.overtaken c || (w.last = some c && w.unsettled c)) = true) :
        w.overtaken c = true ∨ w.last = some c := by
      rw [Bool.or_eq_true, Bool.and_eq_true, decide_eq_true_eq] at hc
      exact hc.imp_right And.left
    have hself : (w.overtaken request.call ||
        (w.last = some request.call && w.unsettled request.call)) = false := by
      rw [Bool.eq_false_iff]
      exact fun hc => hnew (h.rows.taken _ (hover _ hc).symm)
    refine Sound.answered h hr hpending
      (h.rows.set hr hpending rfl (.inl hkind) hover hself)
      (fun c call hold hcall hphase hrunning haborted hlive => ?_) fun c call hcall hc => ?_
    · exact (not_live hfree (hlate hfree c call hold hcall hphase hrunning haborted) hlive).elim
    · -- Who is overtaken and runs on was told to stop.
      rw [Bool.or_eq_true, Bool.and_eq_true] at hc
      refine hc.imp_right fun ⟨_, hunsettled⟩ hold hphase => ?_
      rw [World.unsettled, hcall, any_some, hphase] at hunsettled
      have hok := (h.calls c call hcall).phase
      rw [hphase] at hok
      obtain ⟨hresult, -, -, hlive, -⟩ := hok
      have hresult := hresult hunsettled
      cases haborted : hold.aborted with
      | true => rwa [haborted] at hresult
      | false =>
        exact (not_live hfree (hlate hfree c call hold hcall hphase hunsettled haborted)
            (hlive hunsettled haborted)).elim
  cases hrow : w.row with
  | none => exact hgranted (by rw [hrow]; rfl)
  | some row =>
    by_cases hfree : row.expiresAt ≤ w.clock
    · simp only [takeReplicaClaim, if_pos hfree]
      exact hgranted (by rw [hrow, all_some, decide_eq_true_eq]; exact hfree)
    · simp only [takeReplicaClaim, if_neg hfree, ← hrow]
      exact h.refused hr hpending fun hheld => by cases hheld

/-- **A renewal is carried out**: the row lasts longer. -/
theorem Sound.executeRenew (hkind : request.kind = .renew) : Sound (w.execute r request) := by
  unfold World.execute
  rw [hkind]
  cases hrow : w.row with
  | none =>
    simp only [renewReplicaClaim, ← hrow]
    exact h.refused hr hpending fun hheld => by cases hheld
  | some row =>
    by_cases hholds : row.holder = request.call ∧ w.clock < row.expiresAt
    · simp only [renewReplicaClaim, if_pos hholds]
      have hlast : w.last = some request.call := hholds.1 ▸ h.rows.holder row hrow
      have hself : w.overtaken request.call = false := by
        rw [Bool.eq_false_iff]
        exact fun ho => h.rows.overtaken _ ho hlast
      refine Sound.answered h hr hpending (h.rows.set hr hpending hlast
        (.inr (h.rows.taken _ (.inl hlast))) (fun c => .inl) hself)
        (fun c call hold hcall hphase hrunning haborted hlive => ?_) fun _ _ _ => .inl
      obtain ⟨row', hrow', hholder, htaken, hrenewed⟩ := hlive.row
      cases hrow.symm.trans hrow'
      obtain ⟨r', request', hr', hc, hle⟩ := h.rows.bounded row hrow
      rw [h.rows.ttl r' r request' request hr' hr (hc.trans hholds.1)] at hle
      exact ⟨hlive.last, ⟨_, rfl, hholds.1.symm.trans hholder, Nat.le_trans htaken hle,
        fun hren t ht => Nat.le_trans (hrenewed hren t ht) hle⟩, hlive.timer,
        fun hrel => hlive.unreleased ((released_setAnswer hr).mp hrel)⟩
    · simp only [renewReplicaClaim, if_neg hholds, ← hrow]
      exact h.refused hr hpending fun hheld => by cases hheld

/-- **A claim is given back**: nobody runs under it. -/
theorem Sound.executeRelease (hkind : request.kind = .release) : Sound (w.execute r request) := by
  unfold World.execute
  rw [hkind]
  have hreleased : w.Released request.call := ⟨r, request, hr, rfl, hkind⟩
  refine Sound.answered h hr hpending (h.rows.keep hr hpending (fun _ => hkind)
    (fun row' hrow' => ?_) fun row' hrow' => ?_)
    (fun c call hold hcall hphase hrunning haborted hlive => ?_) fun _ _ _ => .inl
  · exact (filter_eq_some_iff.mp hrow').1
  · by_cases hholder : row'.holder = request.call
    · exact .inr (hholder ▸ hreleased)
    · exact .inl (filter_eq_some_iff.mpr ⟨hrow', by simpa using hholder⟩)
  · obtain ⟨row', hrow', hholder, hrest⟩ := hlive.row
    have hne : row'.holder ≠ request.call := by
      rw [hholder]
      rintro rfl
      exact hlive.unreleased hreleased
    exact ⟨hlive.last, ⟨row', filter_eq_some_iff.mpr ⟨hrow', by simpa using hne⟩, hholder,
      hrest⟩, hlive.timer, fun hrel => hlive.unreleased ((released_setAnswer hr).mp hrel)⟩

end

end Answers

/-! ## Answers arrive -/

section Delivery

variable {w w' : World} {c : CallId} {r : RequestId} {request : Request} {call : Call}

/-- A timer set for `deadline`, where the operation goes on. -/
theorem Hold.holdUntil_live {hold : Hold} {deadline : Time}
    (h : (hold.holdUntil deadline now).aborted = false) :
    hold.holdUntil deadline now = { hold with expiry := some deadline } ∧ now < deadline := by
  obtain ⟨hsame, htimer⟩ := Hold.elapse_live h
  exact ⟨hsame, htimer deadline rfl⟩

section

variable (h : Sound w) (hr : w.requests r = some request) {answer : Answer}
include h hr

/-- **The claim was taken**: the operation starts. -/
theorem Sound.begins (hkind : request.kind = .take) (ha : request.answer = some answer)
    (hheld : answer.held = true) (hcall : w.calls request.call = some call)
    (hphase : call.phase = .taking r) (hlast : w.last = some request.call) :
    Sound (w.setHold request.call call (call.hold w.clock answer.executedAt)) := by
  have hcallOk := h.calls _ call hcall
  have hphaseOk := hcallOk.phase
  rw [hphase] at hphaseOk
  obtain ⟨-, -, hunreleased⟩ := hphaseOk
  refine h.setCall ⟨hcallOk.fresh, hcallOk.ttl, Hold.ok_hold,
    ⟨r, request, answer, hr, rfl, hkind, ha, hheld⟩, fun r' hr' => ?_,
    fun hrunning haborted => ?_, fun ho => absurd hlast (h.rows.overtaken _ ho)⟩
  · unfold Call.hold Hold.holdUntil at hr'
    rw [Hold.renewing_elapse] at hr'
    cases hr'
  · obtain ⟨hsame, htimer⟩ := Hold.holdUntil_live haborted
    rw [Call.hold, hsame]
    obtain ⟨row, hrow, hholder⟩ := (h.rows.last _ hlast).resolve_right hunreleased
    have hnot : request.kind ≠ .release := by
      rw [hkind]
      exact fun heq => by cases heq
    have hrowTtl := h.rows.granted r request answer hr hnot ha hheld row hrow hholder
    rw [hcallOk.ttl r request hr rfl] at hrowTtl
    exact ⟨hlast, ⟨row, hrow, hholder, hrowTtl, fun hrenewed => by cases hrenewed⟩,
      ⟨_, rfl, htimer⟩, hunreleased⟩

/-- **A renewal is answered.** -/
theorem Sound.renewed {hold : Hold} (ha : request.answer = some answer)
    (hcall : w.calls request.call = some call) (hphase : call.phase = .holding hold)
    (hrenewing : hold.renewing = some r) :
    Sound (w.setHold request.call call (hold.answered call request answer.held w.clock)) := by
  have hcallOk := h.calls _ call hcall
  have hphaseOk := hcallOk.phase
  rw [hphase] at hphaseOk
  obtain ⟨hok, -, hrenewal, -, -⟩ := hphaseOk
  obtain ⟨request', hr', -, hkind⟩ := hrenewal r hrenewing
  cases hr.symm.trans hr'
  refine h.setHold hcall hphase hok.answered (fun r' hr' => ?_) (fun hrunning haborted hlive => ?_)
    (fun hrunning haborted => ?_) fun hlost => ?_
  · unfold Hold.answered at hr'
    dsimp only at hr'
    split at hr'
    · rw [Hold.holdUntil, Hold.renewing_elapse] at hr'
      cases hr'
    · rw [Hold.renewing_loseClaim] at hr'
      cases hr'
  · unfold Hold.answered at haborted ⊢
    dsimp only at haborted ⊢
    split at haborted
    · rename_i hheld
      obtain ⟨hsame, htimer⟩ := Hold.holdUntil_live haborted
      rw [if_pos hheld, hsame]
      obtain ⟨row, hrow, hholder, htaken, -⟩ := hlive.row
      have hnot : request.kind ≠ .release := by
        rw [hkind]
        exact fun heq => by cases heq
      have hrowTtl := h.rows.granted r request answer hr hnot ha hheld.1 row hrow hholder
      rw [hcallOk.ttl r request hr rfl] at hrowTtl
      have hdispatched := (h.rows.answered r request answer hr ha).1
      refine ⟨hlive.last, ⟨row, hrow, hholder, htaken, fun _ t ht => ?_⟩, ⟨_, rfl, htimer⟩,
        hlive.unreleased⟩
      cases ht
      exact Nat.le_trans (Nat.add_le_add_right hdispatched _) hrowTtl
    · rw [Hold.loseClaim_aborted] at haborted
      cases haborted
  · unfold Hold.answered at hrunning haborted
    dsimp only at hrunning haborted
    split at haborted
    · rename_i hheld
      obtain ⟨hsame, -⟩ := Hold.holdUntil_live haborted
      rw [if_pos hheld, hsame] at hrunning
      exact ⟨hrunning, hheld.2⟩
    · rw [Hold.loseClaim_aborted] at haborted
      cases haborted
  · unfold Hold.answered
    dsimp only
    split
    · exact Hold.lost_elapse hlost
    · exact Hold.lost_loseClaim hlost

theorem Sound.deliver {answer : Option Answer} (ha : ∀ a, answer = some a → request.answer = some a)
    (hlast : ∀ a, answer = some a → request.kind = .take → a.held = true →
      w.last = some request.call) : Sound (w.deliver r request answer) := by
  unfold World.deliver
  cases hcall : w.calls request.call with
  | none => exact h
  | some call =>
    have hcallOk := h.calls _ call hcall
    have hphaseOk := hcallOk.phase
    dsimp only
    cases hphase : call.phase with
    | polling t =>
      cases answer with
      | none => exact h
      | some answer => exact h
    | taking r' =>
      rw [hphase] at hphaseOk
      obtain ⟨⟨request', hr', -, hkind⟩, honly, hunreleased⟩ := hphaseOk
      cases answer with
      | none =>
        dsimp only
        split
        · exact h.endCall
        · exact h
      | some answer =>
        dsimp only
        split
        · rename_i hrr
          subst hrr
          cases hr.symm.trans hr'
          have ha := ha answer rfl
          split
          · rename_i hheld
            exact h.begins hr hkind ha hheld hcall hphase (hlast answer rfl hkind hheld)
          · rename_i hrefused
            split
            · exact h.endCall
            · refine h.setCall ⟨hcallOk.fresh, hcallOk.ttl, fun r'' ho => ?_, hunreleased⟩
              cases honly r'' ho
              obtain ⟨request', hr', -, -, hanswer⟩ := ho
              cases hr.symm.trans hr'
              exact hrefused (hanswer answer ha)
        · exact h
    | holding hold =>
      cases answer with
      | none =>
        dsimp only
        split
        · rw [hphase] at hphaseOk
          exact h.setHold hcall hphase hphaseOk.1 (fun r' hr' => by cases hr')
            (fun _ _ hlive => { hlive with })
            (fun hrunning haborted => ⟨hrunning, haborted⟩) fun hlost => hlost
        · exact h
      | some answer =>
        dsimp only
        split
        · rename_i hrenewing
          exact h.renewed hr (ha answer rfl) hcall hphase hrenewing
        · exact h

end

end Delivery

variable {c : CallId} {clock : Time}

/-! ## Whole runs -/

section Steps

variable {w w' : World} {action : Action}

/-- A call begins, and asks for the claim. -/
theorem Sound.begin {call : Call} (h : Sound w) (hphase : call.phase = .taking w.sent) :
    Sound ({ w with begun := w.begun + 1 }.setCall w.begun call |>.send w.begun .take
      call.ttl) := by
  have hnone (r : RequestId) (request : Request) (hr : w.requests r = some request) :
      request.call ≠ w.begun := Nat.ne_of_lt (h.rows.fresh r request hr).2
  have hgrown : Sound { w with begun := w.begun + 1 } := by
    refine ⟨⟨⟨fun r request hr => ?_, h.rows.ttl, h.rows.answered, h.rows.dispatched,
      h.rows.single⟩, h.rows.granted, h.rows.bounded, h.rows.holder, h.rows.last, h.rows.taken,
      h.rows.overtaken⟩, fun c call hcall => ?_⟩
    · obtain ⟨hlt, hbegun⟩ := h.rows.fresh r request hr
      exact ⟨hlt, Nat.lt_succ_of_lt hbegun⟩
    · obtain ⟨hfresh, httl, hphase⟩ := h.calls c call hcall
      exact ⟨Nat.lt_succ_of_lt hfresh, httl, hphase.frame
        (fun r request hr hc => ⟨request, hr, hc, rfl⟩) (fun _ ho => ho) (fun hrel => hrel)
        (fun htaken => htaken) (fun _ _ _ _ hlive => { hlive with }) .inl⟩
  refine hgrown.sendCall (Nat.lt_succ_self _)
    (fun r request hr hc => absurd hc (hnone r request hr))
    (fun _ r ⟨request, hr, hc, _⟩ => hnone r request hr hc)
    ⟨Nat.lt_succ_self _, fun r request hr hc => ?_, ?_⟩
  · rcases send_some hr with ⟨-, rfl⟩ | ⟨-, hr⟩
    · rfl
    · exact absurd hc (hnone r request hr)
  · rw [hphase]
    refine ⟨⟨_, update_self .., rfl, rfl⟩, fun r ho => ?_, fun hrel => ?_⟩
    · rcases open_send ho with ⟨rfl, -, -⟩ | ⟨-, request, hr, hc, -⟩
      · rfl
      · exact absurd hc (hnone r request hr)
    · rcases released_send hrel with ⟨-, hkind⟩ | ⟨r, request, hr, hc, -⟩
      · cases hkind
      · exact absurd hc (hnone r request hr)

/-- What a call sends has its span. -/
theorem CallOk.ttl_send {call : Call} (h : CallOk w c call)
    (hr : (w.send c kind call.ttl).requests r = some request) (hc : request.call = c) :
    request.ttl = call.ttl := by
  rcases send_some hr with ⟨-, rfl⟩ | ⟨-, hr⟩
  · rfl
  · exact h.ttl r request hr hc

/-- A call that waits asks again. -/
theorem Sound.poll {call : Call} {t : Time} (h : Sound w) (hcall : w.calls c = some call)
    (hphase : call.phase = .polling t) :
    Sound (w.setCall c { call with phase := .taking w.sent } |>.send c .take call.ttl) := by
  have hcallOk := h.calls c call hcall
  have hphaseOk := hcallOk.phase
  rw [hphase] at hphaseOk
  obtain ⟨hnone, hunreleased⟩ := hphaseOk
  refine h.sendCall hcallOk.fresh hcallOk.ttl (fun _ => hnone)
    ⟨hcallOk.fresh, fun r request => hcallOk.ttl_send,
      ⟨_, update_self .., rfl, rfl⟩, fun r ho => ?_, fun hrel => ?_⟩
  · rcases open_send ho with ⟨rfl, -, -⟩ | ⟨-, ho⟩
    · rfl
    · exact absurd ho (hnone r)
  · rcases released_send hrel with ⟨-, hkind⟩ | hrel
    · cases hkind
    · exact hunreleased hrel

/-- A call that holds the claim sends a renewal, or gives the claim back. -/
theorem Sound.holds {call : Call} {hold hold' : Hold} (h : Sound w) (hcall : w.calls c = some call)
    (hphase : call.phase = .holding hold) (htake : kind ≠ .take) (hok : hold'.Ok)
    (hrenewing : ∀ r, hold'.renewing = some r → hold.renewing = some r ∨ r = w.sent ∧ kind = .renew)
    (hkeeps : hold'.running = true → hold'.aborted = false → kind ≠ .release ∧
      hold.running = true ∧ hold.aborted = false ∧ hold'.expiry = hold.expiry ∧
        hold'.takenAt = hold.takenAt ∧ hold'.renewed = hold.renewed)
    (hlost : hold.result = some .lost → hold'.result = some .lost) :
    Sound (w.setHold c call hold' |>.send c kind call.ttl) := by
  have hcallOk := h.calls c call hcall
  have hphaseOk := hcallOk.phase
  rw [hphase] at hphaseOk
  obtain ⟨-, htaken, hrenewal, hlive, hover⟩ := hphaseOk
  refine h.sendCall hcallOk.fresh hcallOk.ttl (fun hkind => absurd hkind htake)
    ⟨hcallOk.fresh, fun r request => hcallOk.ttl_send, hok,
      h.rows.taken_send htaken, fun r hr => ?_, fun hrunning haborted => ?_,
      fun ho => hlost (hover ho)⟩
  · rcases hrenewing r hr with hr | ⟨rfl, hkind⟩
    · obtain ⟨request, hr', hrest⟩ := hrenewal r hr
      exact ⟨request, send_of_some h.rows hr', hrest⟩
    · exact ⟨_, update_self .., rfl, hkind⟩
  · obtain ⟨hkind, hrunning', haborted', hexpiry, htakenAt, hrenewed⟩ := hkeeps hrunning haborted
    have hlive := hlive hrunning' haborted'
    refine ⟨hlive.last, ?_, ?_, fun hrel => ?_⟩
    · rw [hexpiry, htakenAt, hrenewed]
      exact hlive.row
    · rw [hexpiry]
      exact hlive.timer
    · rcases released_send hrel with ⟨-, hrelease⟩ | hrel
      · exact hkind hrelease
      · exact hlive.unreleased hrel

/-- **One step.** -/
theorem Sound.step (h : Sound w) (hok : Careful w action) (hs : step w action = some w') :
    Sound w' := by
  cases action with
  | tick =>
    cases hs
    exact h.elapse (Nat.le_succ _)
  | begin ttl waitMs pollMs =>
    cases hs
    exact h.begin rfl
  | poll c =>
    dsimp only [Claims.step] at hs
    split at hs
    · rename_i ttl deadline pollMs t hcall
      obtain ⟨-, hs⟩ := ite_none_right_eq_some.mp hs
      cases hs
      exact h.poll hcall rfl
    · cases hs
  | renew c =>
    dsimp only [Claims.step] at hs
    split at hs
    · rename_i ttl deadline pollMs hold hcall
      obtain ⟨⟨-, hresult, -, haborted⟩, hs⟩ := ite_none_right_eq_some.mp hs
      cases hs
      have hhold := (h.calls c _ hcall).phase.1
      show Sound (w.setHold c ⟨ttl, deadline, pollMs, .holding hold⟩ { hold with
        renewing := some w.sent, nextRenewal := hold.nextRenewal + renewalInterval ttl } |>.send
          c .renew ttl)
      refine h.holds hcall rfl (fun heq => by cases heq) hhold
        (fun r hr => .inr ⟨(some.inj hr).symm, rfl⟩) (fun hrunning _ => ?_)
        fun hlost => hlost
      exact ⟨fun heq => (by cases heq), hrunning, haborted, rfl, rfl, rfl⟩
    · cases hs
  | settle c =>
    dsimp only [Claims.step] at hs
    split at hs
    · rename_i ttl deadline pollMs hold hcall
      obtain ⟨-, hs⟩ := ite_none_right_eq_some.mp hs
      cases hs
      exact h.settle hcall rfl
    · cases hs
  | release c =>
    dsimp only [Claims.step] at hs
    split at hs
    · rename_i ttl deadline pollMs hold hcall
      obtain ⟨⟨hresult, -, -⟩, hs⟩ := ite_none_right_eq_some.mp hs
      cases hs
      have hhold := (h.calls c _ hcall).phase.1
      show Sound (w.setHold c ⟨ttl, deadline, pollMs, .holding hold⟩
        { hold with releasing := true } |>.send c .release ttl)
      refine h.holds hcall rfl (fun heq => by cases heq) hhold (fun r => .inl)
        (fun hrunning haborted => ?_) fun hlost => hlost
      have hnone := hhold hrunning
      rw [if_neg (by rw [show hold.aborted = false from haborted]; exact Bool.false_ne_true)]
        at hnone
      rw [hnone] at hresult
      cases hresult
    · cases hs
  | execute r =>
    dsimp only [Claims.step] at hs
    split at hs
    · rename_i request hr
      obtain ⟨hpending, hs⟩ := ite_none_right_eq_some.mp hs
      cases hs
      cases hkind : request.kind with
      | take => exact h.executeTake hr hpending hkind hok
      | renew => exact h.executeRenew hr hpending hkind
      | release => exact h.executeRelease hr hpending hkind
    · cases hs
  | answer r =>
    dsimp only [Claims.step] at hs
    split at hs
    · rename_i request hr
      obtain ⟨-, hs⟩ := ite_none_right_eq_some.mp hs
      cases hs
      exact h.deliver hr (fun _ ha => ha) fun answer ha hkind => hok request answer hr hkind ha
    · cases hs
  | fail r =>
    obtain ⟨request, hr, rfl⟩ := map_eq_some_iff.mp hs
    exact h.deliver hr (fun _ ha => by cases ha) fun _ ha => by cases ha
  | die c =>
    cases hs
    exact h.endCall

end Steps

theorem sound_reach (h : Runs.Reach step Careful (start clock) w) : Sound w :=
  h.invariant (sound_start clock) fun _ _ _ hw => hw.step

/-- **A claim is exclusive while its work runs, and who was overtaken rejects**, in every run that
meets the condition. -/
theorem exclusive_of_careful {clock : Time} {w : World}
    (h : Runs.Reach step Careful (start clock) w) : w.Exclusive ∧ w.Rejects :=
  ⟨(sound_reach h).exclusive, (sound_reach h).rejects⟩

/-! ## Runs -/

/-- `Careful`, checked over the calls there were. -/
def checked (w : World) : Action → Bool
  | .execute r =>
    (w.requests r).all fun request =>
      request.kind ≠ .take || !w.row.all (·.expiresAt ≤ w.clock) ||
        (List.range w.begun).all fun c =>
          match w.calls c with
          | some ⟨ttl, _, _, .holding hold⟩ =>
            !hold.running || hold.aborted || hold.renewed ||
              hold.expiry.all (· ≤ hold.takenAt + ttl)
          | _ => true
  | .answer r =>
    (w.requests r).all fun request =>
      request.kind ≠ .take || request.answer.all fun answer =>
        !answer.held || w.last = some request.call
  | _ => true

theorem careful_of_checked {action : Action} (h : Sound w) (hok : checked w action = true) :
    Careful w action := by
  cases action with
  | execute r =>
    intro request hr hkind hfree c call hold hcall hphase hrunning haborted hrenewed
    rw [checked, hr, all_some, hkind, hfree] at hok
    have hall := List.all_eq_true.mp hok c (List.mem_range.mpr (h.calls c call hcall).fresh)
    obtain ⟨ttl, deadline, pollMs, phase⟩ := call
    cases hphase
    rw [hcall] at hall
    dsimp only at hall
    rwa [hrunning, haborted, hrenewed] at hall
  | answer r =>
    intro request answer hr hkind ha hheld
    rw [checked, hr, all_some, hkind, ha, all_some, hheld] at hok
    exact of_decide_eq_true hok
  | tick => trivial
  | begin ttl waitMs pollMs => trivial
  | poll c => trivial
  | renew c => trivial
  | settle c => trivial
  | release c => trivial
  | fail r => trivial
  | die c => trivial

theorem reach_of_checked
    (h : Runs.Reach step (fun w action => checked w action = true) (start clock) w) :
    Runs.Reach step Careful (start clock) w := by
  induction h with
  | init => exact .init
  | tail _ hok hs ih => exact .tail ih (careful_of_checked (sound_reach ih) hok) hs

/-- What is seen of two calls: their results, whether the first one runs untold, who took the claim
last, and whether the first was overtaken. -/
def World.shows (w : World) : Option (Option Result) × Bool × Option CallId × Bool :=
  let hold (c : CallId) : Option Hold := (w.calls c).bind fun call =>
    match call.phase with
    | .holding hold => some hold
    | _ => none
  ((hold 0).map (·.result), (hold 0).any fun hold => hold.running && !hold.aborted, w.last,
    w.overtaken 0)

/-- The first call's operation hangs, and the second call takes the claim over. -/
theorem exclusive_of_careful_taken : ∃ w, Runs.Reach step Careful (start 0) w ∧
    w.shows = (some (some .lost), false, some 1, true) ∧ w.Exclusive ∧ w.Rejects := by
  have hrun : (Runs.execOk step (fun w action => checked w action = true) (start 0)
      [.begin 2 0 200, .execute 0, .answer 0, .begin 2 0 200, .tick, .tick, .execute 1,
        .answer 1]).map World.shows = some (some (some .lost), false, some 1, true) := by
    decide +kernel
  obtain ⟨w, hw, hshows⟩ := map_eq_some_iff.mp hrun
  have hreach := reach_of_checked (Runs.reach_of_execOk hw)
  exact ⟨w, hreach, hshows, exclusive_of_careful hreach⟩

/-- The answer of the first take is late: the claim lapses, and is taken, before the timer. -/
theorem runs_on : ¬∀ clock w, Runs.Reach step Runs.anyEvent (start clock) w →
    w.Exclusive ∧ w.Rejects := by
  intro hclaim
  have hrun : (Runs.exec step (start 0)
      [.begin 2 0 200, .execute 0, .tick, .answer 0, .begin 2 0 200, .tick, .execute 1]).map
        (fun w => (w.calls 0, w.last)) =
      some (some ⟨2, 0, 200, .holding { nextRenewal := 251, takenAt := 0, expiry := some 3 }⟩,
        some 1) := by
    decide +kernel
  obtain ⟨w, hw, hshows⟩ := map_eq_some_iff.mp hrun
  obtain ⟨hcall, hlast⟩ := Prod.mk.inj hshows
  have hexclusive := (hclaim 0 w (Runs.reach_of_exec hw)).1 0 _ _ hcall rfl rfl rfl
  cases hlast.symm.trans hexclusive

end Catamorphic.Replicas.Claims
