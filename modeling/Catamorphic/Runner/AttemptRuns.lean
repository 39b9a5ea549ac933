import Catamorphic.Runner.Attempt
import Mathlib.Data.List.Nodup
import Mathlib.Data.List.Range

/-!
# Runs of the attempt runner

Frames are numbered without a gap and the exit is the last of them, a command id runs once,
the turn completes once, and no request of the harness is left waiting. The last holds of
runs in which the turn completes with no request open: the runner closes its requests
through events, and after the completion it sends none.
-/

namespace Catamorphic.Runner.Attempt

open State List Option

variable {s s' : State} {s'' : State}

/-! ## What the methods leave alone -/

/-- Frames and requests apart, nothing changed, and the exit not either. -/
def Emits (s s' : State) : Prop :=
  ∃ seq written completed requests settled,
    s' = { s with seq, written, completed, requests, settled }

theorem Emits.refl (s : State) : Emits s s := ⟨_, _, _, _, _, rfl⟩

theorem Emits.trans (h : Emits s s') (h' : Emits s' s'') : Emits s s'' := by
  obtain ⟨_, _, _, _, _, rfl⟩ := h
  obtain ⟨_, _, _, _, _, rfl⟩ := h'
  exact ⟨_, _, _, _, _, rfl⟩

/-- A frame is all that `emitFrame` adds. -/
theorem emitFrame_eq (s : State) (body : FrameBody) :
    ∃ seq written, s.emitFrame body = { s with seq, written } := by
  unfold emitFrame
  split
  · exact ⟨_, _, rfl⟩
  · exact ⟨_, _, rfl⟩

theorem emits_emitFrame (s : State) (body : FrameBody) : Emits s (s.emitFrame body) := by
  obtain ⟨_, _, h⟩ := emitFrame_eq s body
  exact ⟨_, _, _, _, _, h⟩

/-- What an event can do: nothing, end the turn, close an open request, be written. -/
inductive Emitted (s : State) : HarnessEvent → State → Prop
  | nothing {event : HarnessEvent} : Emitted s event s
  | ends {status : TurnEnd} : s.completed = false →
      Emitted s (.turnCompleted status)
        ({ s with completed := true }.emitFrame (.event (.turnCompleted status)))
  | closes {key : RequestKey} {reason : String} {promise : Promise} : s.completed = false →
      s.requests.lookup key = some promise →
      Emitted s (.requestClosed key reason)
        ((s.settle key promise).emitFrame (.event (.requestClosed key reason)))
  | writes {event : HarnessEvent} : (∀ status, event ≠ .turnCompleted status) →
      Emitted s event (s.emitFrame (.event event))

theorem emitted (s : State) (event : HarnessEvent) : Emitted s event (s.emitEvent event) := by
  unfold emitEvent
  split
  · exact .nothing
  · rename_i hfresh
    rw [Bool.not_eq_true] at hfresh
    cases event with
    | turnCompleted status => exact .ends hfresh
    | requestClosed key reason =>
      cases hlookup : s.requests.lookup key with
      | none =>
        simp only [hlookup]
        exact .nothing
      | some promise =>
        simp only [hlookup]
        exact .closes hfresh hlookup
    | requestOpened key => exact .writes nofun
    | other => exact .writes nofun

theorem emits_emitEvent (s : State) (event : HarnessEvent) : Emits s (s.emitEvent event) := by
  have h := emitted s event
  generalize s.emitEvent event = s' at h ⊢
  cases h with
  | nothing => exact .refl s
  | ends _ =>
    exact Emits.trans ⟨_, _, _, _, _, rfl⟩ (emits_emitFrame { s with completed := true } _)
  | closes _ _ => exact Emits.trans ⟨_, _, _, _, _, rfl⟩ (emits_emitFrame (s.settle _ _) _)
  | writes _ => exact emits_emitFrame s _

theorem emits_withdrawRequest (s : State) (key : RequestKey) (reason : String) :
    Emits s (s.withdrawRequest key reason) := by
  unfold withdrawRequest
  split
  · exact emits_emitEvent s _
  · exact .refl s

theorem emits_foldl_withdraw (keys : List RequestKey) (reason : String) (s : State) :
    Emits s (keys.foldl (fun s key => s.withdrawRequest key reason) s) := by
  induction keys generalizing s with
  | nil => exact .refl s
  | cons key keys ih => exact (emits_withdrawRequest s key reason).trans (ih _)

theorem emits_closeRequests (s : State) (reason : String) : Emits s (s.closeRequests reason) :=
  emits_foldl_withdraw _ reason s

/-- An acknowledgement adds a frame and is remembered. -/
theorem ack_eq (s : State) (id : CommandId) (error : Option String) :
    ∃ seq written, s.ack id error = { s with seq, written, seen := (id, error) :: s.seen } := by
  obtain ⟨_, _, h⟩ := emitFrame_eq { s with seen := (id, error) :: s.seen } (.ack id error)
  exact ⟨_, _, h⟩

/-- The exit lets go of the calls, and adds the last frame. -/
theorem exit_eq (s : State) :
    ∃ seq written calls, s.exit = { s with seq, written, calls, exited := true } := by
  unfold exit
  split
  · rename_i h
    exact ⟨_, _, _, by rw [← h]⟩
  · obtain ⟨_, _, h⟩ := emitFrame_eq { s with calls := [] } .exit
    rw [h]
    exact ⟨_, _, _, rfl⟩

/-! ## Frames -/

/-- A frame with the end of the turn. -/
def Frame.completes (frame : Frame) : Bool :=
  match frame.body with
  | .event (.turnCompleted _) => true
  | _ => false

/-- How often the end of the turn was written. -/
def completions (s : State) : Nat := s.written.countP Frame.completes

/-- The frames written are numbered from 1, end with the exit and have one end of the turn. -/
structure Frames (s : State) : Prop where
  numbered : s.written.map Frame.seq = List.range' 1 s.seq
  last : s.exited → ∃ front, s.written = front ++ [⟨s.seq, .exit⟩] ∧
    ∀ frame ∈ front, frame.body ≠ .exit
  open' : s.exited = false → ∀ frame ∈ s.written, frame.body ≠ .exit
  ends : completions s = if s.completed then 1 else 0

section

variable (h : Frames s)
include h

/-- Only the frames, the exit and the completion matter. -/
theorem Frames.congr (hseq : s'.seq = s.seq) (hwritten : s'.written = s.written)
    (hexited : s'.exited = s.exited) (hcompleted : s'.completed = s.completed) : Frames s' := by
  refine ⟨?_, ?_, ?_, ?_⟩
  · rw [hwritten, hseq]
    exact h.numbered
  · rw [hexited, hwritten, hseq]
    exact h.last
  · rw [hexited, hwritten]
    exact h.open'
  · rw [completions, hwritten, hcompleted]
    exact h.ends

omit h in
theorem numbered_append {written : List Frame} {seq : Nat}
    (h : written.map Frame.seq = List.range' 1 seq) (body : FrameBody) :
    (written ++ [Frame.mk (seq + 1) body]).map Frame.seq = List.range' 1 (seq + 1) := by
  rw [map_append, h, range'_1_concat, Nat.add_comm 1 seq]
  rfl

/-- A frame that ends nothing. -/
theorem Frames.emitFrame (body : FrameBody) (hexit : body ≠ .exit)
    (hends : Frame.completes ⟨s.seq + 1, body⟩ = false) : Frames (s.emitFrame body) := by
  unfold State.emitFrame
  split
  · exact h
  · rename_i hopen
    refine ⟨numbered_append h.numbered body, fun h' => absurd h' hopen, fun h' frame hframe => ?_,
      ?_⟩
    · rcases mem_append.mp hframe with hframe | hframe
      · exact h.open' h' frame hframe
      · rw [mem_singleton.mp hframe]
        exact hexit
    · rw [completions, countP_append, countP_singleton, hends]
      exact h.ends

/-- The end of the turn is written while the runner runs. -/
theorem Frames.complete (hrun : s.exited = false) (hfresh : s.completed = false)
    (status : TurnEnd) :
    Frames ({ s with completed := true }.emitFrame (.event (.turnCompleted status))) := by
  rw [State.emitFrame, if_neg (by rw [hrun]; exact Bool.false_ne_true)]
  refine ⟨numbered_append h.numbered _, fun h' => ?_, fun _ frame hframe => ?_, ?_⟩
  · cases hrun.symm.trans h'
  · rcases mem_append.mp hframe with hframe | hframe
    · exact h.open' hrun frame hframe
    · rw [mem_singleton.mp hframe]
      exact nofun
  · have hends := h.ends
    rw [hfresh] at hends
    rw [completions, countP_append]
    exact congrArg (· + 1) hends

theorem Frames.emitEvent (event : HarnessEvent)
    (hrun : (∃ status, event = .turnCompleted status) → s.exited → s.completed) :
    Frames (s.emitEvent event) := by
  have hemitted := emitted s event
  generalize s.emitEvent event = s' at hemitted ⊢
  cases hemitted with
  | nothing => exact h
  | @ends status hfresh =>
    refine h.complete (Bool.eq_false_iff.mpr fun hexited => ?_) hfresh status
    cases hfresh.symm.trans (hrun ⟨status, rfl⟩ hexited)
  | @closes key _ promise _ _ =>
    have hsettled : Frames (s.settle key promise) := h.congr rfl rfl rfl rfl
    exact hsettled.emitFrame _ nofun rfl
  | writes hends =>
    refine h.emitFrame _ nofun ?_
    cases event with
    | turnCompleted status => exact absurd rfl (hends status)
    | requestOpened | requestClosed | other => rfl

theorem Frames.withdrawRequest (key : RequestKey) (reason : String) :
    Frames (s.withdrawRequest key reason) := by
  unfold State.withdrawRequest
  split
  · exact h.emitEvent _ fun ⟨_, hne⟩ => nomatch hne
  · exact h

theorem Frames.closeRequests (reason : String) : Frames (s.closeRequests reason) := by
  unfold State.closeRequests
  generalize s.requests.map Prod.fst = keys
  induction keys generalizing s with
  | nil => exact h
  | cons key keys ih => exact ih (h.withdrawRequest key reason)

theorem Frames.ack (id : CommandId) (error : Option String) : Frames (s.ack id error) := by
  have hseen : Frames { s with seen := (id, error) :: s.seen } := h.congr rfl rfl rfl rfl
  exact hseen.emitFrame _ nofun rfl

theorem Frames.exit : Frames s.exit := by
  unfold State.exit
  split
  · exact h
  · rename_i hrun
    have hopen : s.exited = false := Bool.eq_false_iff.mpr hrun
    rw [State.emitFrame, if_neg hrun]
    refine ⟨numbered_append h.numbered _, fun _ => ⟨s.written, rfl, h.open' hopen⟩, nofun, ?_⟩
    rw [completions, countP_append]
    exact h.ends

end

/-! ## Requests -/

/-- Every promise made is settled or waits under its key, and no promise twice. -/
structure Requests (s : State) : Prop where
  keys : (s.requests.map Prod.fst).Nodup
  all : (s.settled ++ s.requests.map Prod.snd).Perm (List.range s.opened)

theorem Requests.congr (h : Requests s) (hrequests : s'.requests = s.requests)
    (hsettled : s'.settled = s.settled) (hopened : s'.opened = s.opened) : Requests s' := by
  refine ⟨?_, ?_⟩
  · rw [hrequests]
    exact h.keys
  · rw [hrequests, hsettled, hopened]
    exact h.all

variable {key : RequestKey} {promise : Promise}

/-- Under distinct keys, what is not under one key is the rest. -/
theorem perm_of_lookup {requests : List (RequestKey × Promise)}
    (hkeys : (requests.map Prod.fst).Nodup) (hlookup : requests.lookup key = some promise) :
    ((key, promise) :: requests.filter fun entry => entry.1 ≠ key).Perm requests := by
  induction requests with
  | nil => cases hlookup
  | cons entry requests ih =>
    rw [map_cons, nodup_cons] at hkeys
    rw [lookup_cons] at hlookup
    by_cases hkey : key = entry.1
    · subst hkey
      rw [beq_self_eq_true, some.injEq] at hlookup
      subst hlookup
      have hrest : requests.filter (fun other => other.1 ≠ entry.1) = requests :=
        filter_eq_self.mpr fun other hother => by
          rw [decide_eq_true_eq]
          exact fun heq => hkeys.1 (heq ▸ mem_map_of_mem hother)
      simp only [ne_eq, filter_cons, hrest]
      exact .refl _
    · rw [beq_false_of_ne hkey] at hlookup
      rw [filter_cons, if_pos (by simpa using Ne.symm hkey)]
      exact (List.Perm.swap _ _ _).trans ((ih hkeys.2 hlookup).cons entry)

section

variable (h : Requests s)
include h

theorem Requests.settle (hlookup : s.requests.lookup key = some promise) :
    Requests (s.settle key promise) := by
  refine ⟨?_, ?_⟩
  · exact h.keys.sublist (filter_sublist.map Prod.fst)
  · refine List.Perm.trans ?_ h.all
    have hperm := (perm_of_lookup h.keys hlookup).map Prod.snd
    rw [State.settle, append_assoc]
    exact hperm.append_left s.settled

theorem Requests.emitFrame (body : FrameBody) : Requests (s.emitFrame body) := by
  obtain ⟨_, _, heq⟩ := emitFrame_eq s body
  rw [heq]
  exact h.congr rfl rfl rfl

theorem Requests.emitEvent (event : HarnessEvent) : Requests (s.emitEvent event) := by
  have hemitted := emitted s event
  generalize s.emitEvent event = s' at hemitted ⊢
  cases hemitted with
  | nothing => exact h
  | ends _ =>
    have hcompleted : Requests { s with completed := true } := h.congr rfl rfl rfl
    exact hcompleted.emitFrame _
  | closes _ hlookup => exact (h.settle hlookup).emitFrame _
  | writes _ => exact h.emitFrame _

theorem Requests.withdrawRequest (key : RequestKey) (reason : String) :
    Requests (s.withdrawRequest key reason) := by
  unfold State.withdrawRequest
  split
  · exact h.emitEvent _
  · exact h

theorem Requests.closeRequests (reason : String) : Requests (s.closeRequests reason) := by
  unfold State.closeRequests
  generalize s.requests.map Prod.fst = keys
  induction keys generalizing s with
  | nil => exact h
  | cons key keys ih => exact ih (h.withdrawRequest key reason)

theorem Requests.ack (id : CommandId) (error : Option String) : Requests (s.ack id error) := by
  obtain ⟨_, _, heq⟩ := ack_eq s id error
  rw [heq]
  exact h.congr rfl rfl rfl

theorem Requests.exit : Requests s.exit := by
  obtain ⟨_, _, _, heq⟩ := exit_eq s
  rw [heq]
  exact h.congr rfl rfl rfl

/-- A promise rejected at once. -/
theorem Requests.refuse :
    Requests { s with opened := s.opened + 1, settled := s.settled ++ [s.opened] } := by
  refine ⟨h.keys, ?_⟩
  rw [append_assoc, range_succ]
  refine (perm_append_comm.append_left s.settled).trans ?_
  rw [← append_assoc]
  exact h.all.append_right _

/-- A promise under a key that waits for none. -/
theorem Requests.setRequest (hkey : key ∉ s.requests.map Prod.fst) :
    Requests (s.setRequest key) := by
  have hnone : s.requests.lookup key = none := by
    rw [lookup_eq_none_iff]
    intro entry hentry
    rw [bne_iff_ne]
    exact fun heq => hkey (heq ▸ mem_map_of_mem hentry)
  unfold State.setRequest
  rw [hnone]
  refine ⟨?_, ?_⟩
  · show ((s.requests ++ [(key, s.opened)]).map Prod.fst).Nodup
    rw [map_append, nodup_append]
    refine ⟨h.keys, nodup_singleton _, fun a ha b hb => ?_⟩
    rw [map_singleton, mem_singleton] at hb
    exact fun heq => hkey (by rwa [heq, hb] at ha)
  · show (s.settled ++ (s.requests ++ [(key, s.opened)]).map Prod.snd).Perm _
    rw [map_append, ← append_assoc, range_succ]
    exact h.all.append_right _

end

/-- Withdrawing takes the request away, as long as the turn is not completed. -/
theorem withdrawRequest_requests (hfresh : s.completed = false) (key : RequestKey)
    (reason : String) :
    (s.withdrawRequest key reason).requests = (s.requests.filter fun entry => entry.1 ≠ key) ∧
      (s.withdrawRequest key reason).completed = false := by
  unfold State.withdrawRequest
  cases hlookup : s.requests.lookup key with
  | none =>
    refine ⟨(filter_eq_self.mpr fun entry hentry => ?_).symm, hfresh⟩
    have hne := lookup_eq_none_iff.mp hlookup entry hentry
    rw [bne_iff_ne] at hne
    exact decide_eq_true (Ne.symm hne)
  | some promise =>
    simp only [State.emitEvent, hfresh, hlookup]
    obtain ⟨_, _, heq⟩ := emitFrame_eq (s.settle key promise) (.event (.requestClosed key reason))
    rw [heq]
    exact ⟨rfl, hfresh⟩

/-- **Closing the requests leaves none open**, as long as the turn is not completed. -/
theorem closeRequests_requests (hfresh : s.completed = false) (reason : String) :
    (s.closeRequests reason).requests = [] := by
  have hfold : ∀ (keys : List RequestKey) (s : State), s.completed = false →
      (keys.foldl (fun s key => s.withdrawRequest key reason) s).requests =
        s.requests.filter fun entry => entry.1 ∉ keys := by
    intro keys
    induction keys with
    | nil => intro s _; simp
    | cons key keys ih =>
      intro s hfresh
      obtain ⟨hrequests, hfresh'⟩ := withdrawRequest_requests hfresh key reason
      rw [foldl_cons, ih _ hfresh', hrequests, List.filter_filter]
      refine filter_congr fun entry _ => ?_
      by_cases hkey : entry.1 = key <;> simp [hkey]
  rw [State.closeRequests, hfold _ s hfresh, filter_eq_nil_iff]
  intro entry hentry
  simpa using ⟨entry.2, hentry⟩

theorem closeRequests_nil (h : s.requests = []) (reason : String) : s.closeRequests reason = s := by
  rw [State.closeRequests, h]
  rfl

/-! ## Commands -/

/-- The commands whose acknowledgement waits for the harness to return. -/
def waiting (doing : List Doing) : List CommandId :=
  doing.filterMap fun
    | .starting id | .interrupting id => some id
    | .steering _ | .stopping _ | .ending _ => none

/-- A command the runner would not take again. -/
def Known (s : State) (id : CommandId) : Prop :=
  (s.seen.lookup id).isSome ∨ id ∈ s.inFlight ∨ id ∈ waiting s.doing

/-- A command is taken once, and remembered. -/
structure Once (s : State) : Prop where
  nodup : s.taken.Nodup
  known : ∀ id ∈ s.taken, Known s id

theorem Once.keep (h : Once s) (htaken : s'.taken = s.taken)
    (hknown : ∀ id, Known s id → Known s' id) : Once s' := by
  refine ⟨htaken ▸ h.nodup, fun id hid => hknown id (h.known id ?_)⟩
  rwa [htaken] at hid

/-- Only what is remembered of the commands matters. -/
theorem Once.congr (h : Once s) (htaken : s'.taken = s.taken) (hseen : s'.seen = s.seen)
    (hflight : s'.inFlight = s.inFlight) (hdoing : waiting s'.doing = waiting s.doing) :
    Once s' := by
  refine h.keep htaken fun id hid => ?_
  rwa [Known, hseen, hflight, hdoing]

theorem Once.emits (h : Once s) (he : Emits s s') : Once s' := by
  obtain ⟨_, _, _, _, _, rfl⟩ := he
  exact h.congr rfl rfl rfl rfl

variable {id id' : CommandId} {error : Option String}

theorem lookup_cons_isSome {seen : List (CommandId × Option String)}
    (h : (seen.lookup id').isSome) : (((id, error) :: seen).lookup id').isSome := by
  rw [lookup_cons]
  cases id' == id
  · exact h
  · rfl

theorem known_ack (s : State) (id : CommandId) (error : Option String) :
    Known (s.ack id error) id ∧ ∀ id', Known s id' → Known (s.ack id error) id' := by
  obtain ⟨_, _, heq⟩ := ack_eq s id error
  rw [heq]
  refine ⟨.inl ?_, fun id' h => ?_⟩
  · show (((id, error) :: s.seen).lookup id).isSome
    rw [lookup_cons_self]
    rfl
  · rcases h with h | h
    · exact .inl (lookup_cons_isSome h)
    · exact .inr h

theorem Once.ack (h : Once s) (id : CommandId) (error : Option String) : Once (s.ack id error) := by
  refine h.keep ?_ (known_ack s id error).2
  obtain ⟨_, _, heq⟩ := ack_eq s id error
  rw [heq]

/-- A command is acknowledged when the harness it waited for returned. -/
theorem Once.ackPopped (htaken : s'.taken = s.taken) (h : Once s)
    (hpop : ∀ id', Known s id' → Known s' id' ∨ id' = id) : Once (s'.ack id error) := by
  refine ⟨?_, fun id' hid' => ?_⟩
  · obtain ⟨_, _, heq⟩ := ack_eq s' id error
    rw [heq]
    exact htaken ▸ h.nodup
  · have hid : id' ∈ s.taken := by
      obtain ⟨_, _, heq⟩ := ack_eq s' id error
      rw [heq] at hid'
      rwa [← htaken]
    rcases hpop id' (h.known id' hid) with hknown | rfl
    · exact (known_ack s' id error).2 id' hknown
    · exact (known_ack s' id' error).1

/-! ## The course of the attempt -/

/-- Where the attempt stands, and what that says of its requests. -/
structure Course (s : State) : Prop where
  begun : 0 < s.starts → s.control ∨ s.exited ∨ ∃ id, .starting id ∈ s.doing
  started : s.control → 0 < s.starts
  starting : ∀ id, .starting id ∈ s.doing → 0 < s.starts
  single : s.starts ≤ 1
  ended : s.exited → s.completed ∨ s.starts = 0
  left : s.exited → s.completed ∨ s.aborted
  stopping : ∀ id, .stopping id ∈ s.doing →
    s.aborted ∧ (s.control ∨ s.completed ∨ s.starts = 0)
  /-- Nothing waits once the turn is completed, the runner stopped or left. -/
  closed : (s.completed ∨ s.exited ∨ (s.aborted ∧ ∀ id, .stopping id ∉ s.doing)) →
    s.requests = []
  interrupted : ∀ n < s.openedAtInterrupt, n ∈ s.settled

/-- What an event can change of the course. -/
structure Onward (s s' : State) : Prop where
  emits : Emits s s'
  completed : s.completed → s'.completed
  requests : s.requests = [] → s'.requests = []
  settled : ∀ n ∈ s.settled, n ∈ s'.settled

theorem Onward.trans (h : Onward s s') (h' : Onward s' s'') : Onward s s'' :=
  ⟨h.emits.trans h'.emits, fun hc => h'.completed (h.completed hc),
    fun hr => h'.requests (h.requests hr), fun n hn => h'.settled n (h.settled n hn)⟩

theorem onward_emitFrame (s : State) (body : FrameBody) : Onward s (s.emitFrame body) := by
  refine ⟨emits_emitFrame s body, ?_, ?_, ?_⟩ <;>
    (obtain ⟨_, _, heq⟩ := emitFrame_eq s body; rw [heq]; intros; assumption)

theorem onward_settle (hlookup : s.requests.lookup key = some promise) :
    Onward s (s.settle key promise) := by
  refine ⟨⟨_, _, _, _, _, rfl⟩, id, fun hnil => ?_, fun n => mem_append_left _⟩
  rw [hnil] at hlookup
  cases hlookup

theorem onward_emitEvent (s : State) (event : HarnessEvent) : Onward s (s.emitEvent event) := by
  have hemitted := emitted s event
  generalize s.emitEvent event = s' at hemitted ⊢
  cases hemitted with
  | nothing => exact ⟨.refl s, id, id, fun _ hn => hn⟩
  | ends _ =>
    have hends : Onward s { s with completed := true } :=
      ⟨⟨_, _, _, _, _, rfl⟩, fun _ => rfl, id, fun _ hn => hn⟩
    exact hends.trans (onward_emitFrame _ _)
  | closes _ hlookup => exact (onward_settle hlookup).trans (onward_emitFrame _ _)
  | writes _ => exact onward_emitFrame s _

/-- Only its end completes the turn. -/
theorem emitEvent_completed {event : HarnessEvent} (h : (s.emitEvent event).completed) :
    s.completed ∨ ∃ status, event = .turnCompleted status := by
  have hemitted := emitted s event
  generalize s.emitEvent event = s' at hemitted h
  cases hemitted with
  | nothing => exact .inl h
  | @ends status _ => exact .inr ⟨status, rfl⟩
  | @closes key reason promise _ _ =>
    obtain ⟨_, _, heq⟩ := emitFrame_eq (s.settle key promise) (.event (.requestClosed key reason))
    rw [heq] at h
    exact .inl h
  | @writes event _ =>
    obtain ⟨_, _, heq⟩ := emitFrame_eq s (.event event)
    rw [heq] at h
    exact .inl h

/-- The turn's end completes the turn. -/
theorem completed_emitEvent (s : State) (status : TurnEnd) :
    (s.emitEvent (.turnCompleted status)).completed := by
  unfold State.emitEvent
  split
  · assumption
  · obtain ⟨_, _, heq⟩ := emitFrame_eq { s with completed := true } (.event (.turnCompleted status))
    rw [heq]

theorem onward_withdrawRequest (s : State) (key : RequestKey) (reason : String) :
    Onward s (s.withdrawRequest key reason) ∧
      ((s.withdrawRequest key reason).completed → s.completed) := by
  unfold State.withdrawRequest
  split
  · refine ⟨onward_emitEvent s _, fun h => (emitEvent_completed h).resolve_right ?_⟩
    exact fun ⟨_, hne⟩ => nomatch hne
  · exact ⟨⟨.refl s, id, id, fun _ hn => hn⟩, id⟩

theorem onward_closeRequests (s : State) (reason : String) :
    Onward s (s.closeRequests reason) ∧ ((s.closeRequests reason).completed → s.completed) := by
  unfold State.closeRequests
  generalize s.requests.map Prod.fst = keys
  induction keys generalizing s with
  | nil => exact ⟨⟨.refl s, id, id, fun _ hn => hn⟩, id⟩
  | cons key keys ih =>
    obtain ⟨hone, hone'⟩ := onward_withdrawRequest s key reason
    obtain ⟨hrest, hrest'⟩ := ih (s.withdrawRequest key reason)
    exact ⟨hone.trans hrest, fun h => hone' (hrest' h)⟩

/-- Events keep the course, where the turn completes with no request open. -/
theorem Course.onward (h : Course s) (ho : Onward s s')
    (hends : s'.completed → s.completed ∨ s.requests = []) : Course s' := by
  have hcompleted := ho.completed
  have hrequests := ho.requests
  have hsettled := ho.settled
  obtain ⟨_, _, _, _, _, rfl⟩ := ho.emits
  refine ⟨h.begun, h.started, h.starting, h.single, fun he => (h.ended he).imp_left hcompleted,
    fun he => (h.left he).imp_left hcompleted, fun id hid => ?_, fun hc => hrequests ?_,
    fun n hn => hsettled n (h.interrupted n hn)⟩
  · obtain ⟨haborted, hflow⟩ := h.stopping id hid
    exact ⟨haborted, hflow.imp_right fun hflow => hflow.imp_left hcompleted⟩
  · rcases hc with hc | hc
    · rcases hends hc with hold | hnil
      · exact h.closed (.inl hold)
      · exact hnil
    · exact h.closed (.inr hc)

theorem Course.closeRequests (h : Course s) (reason : String) : Course (s.closeRequests reason) :=
  h.onward (onward_closeRequests s reason).1 fun hc =>
    .inl ((onward_closeRequests s reason).2 hc)

/-- Closing leaves nothing waiting, since nothing waits after the completion. -/
theorem Course.closedNil (h : Course s) (reason : String) :
    (s.closeRequests reason).requests = [] := by
  cases hcompleted : s.completed with
  | false => exact closeRequests_requests hcompleted reason
  | true =>
    rw [closeRequests_nil (h.closed (.inl hcompleted))]
    exact h.closed (.inl hcompleted)

/-- Between commands, the attempt has a control, is over or was never begun. -/
theorem Course.flow (h : Course s) (hdoing : s.doing = []) :
    s.control ∨ s.completed ∨ s.starts = 0 := by
  by_cases hstarts : s.starts = 0
  · exact .inr (.inr hstarts)
  · rcases h.begun (Nat.pos_of_ne_zero hstarts) with hb | hb | ⟨_, hb⟩
    · exact .inl hb
    · exact .inr (h.ended hb)
    · rw [hdoing] at hb
      cases hb

variable {d : Doing} {rest : List Doing} {command : Command}

/-- A call of the harness that neither starts the attempt nor stops it. -/
theorem Course.push (h : Course s) (hstarting : ∀ id, d ≠ .starting id)
    (hstopping : ∀ id, d ≠ .stopping id) : Course { s with doing := d :: s.doing } := by
  refine { h with
      begun := fun hs => ?_, starting := fun id hid => ?_, stopping := fun id hid => ?_,
      closed := fun hc => h.closed ?_ }
  · refine (h.begun hs).imp_right fun hb => hb.imp_right fun ⟨id, hb⟩ => ?_
    exact ⟨id, mem_cons_of_mem d hb⟩
  · exact h.starting id ((mem_cons.mp hid).resolve_left (hstarting id).symm)
  · exact h.stopping id ((mem_cons.mp hid).resolve_left (hstopping id).symm)
  · refine hc.imp_right fun hc => hc.imp_right fun ⟨haborted, hnone⟩ => ?_
    exact ⟨haborted, fun id hid => hnone id (mem_cons_of_mem d hid)⟩

/-! ## Steps -/

structure Inv (s : State) : Prop where
  frames : Frames s
  requests : Requests s
  once : Once s
  course : Course s

theorem inv_initial : Inv State.initial where
  frames := ⟨rfl, nofun, fun _ _ h => (nomatch h), rfl⟩
  requests := ⟨nodup_nil, .refl _⟩
  once := ⟨nodup_nil, nofun⟩
  course := ⟨nofun, nofun, nofun, Nat.zero_le 1, nofun, nofun, nofun, fun _ => rfl, nofun⟩

/-- An event of a running attempt. -/
theorem Inv.emitEvent (h : Inv s) (event : HarnessEvent) (hstarts : 0 < s.starts)
    (hends : (∃ status, event = .turnCompleted status) → s.completed ∨ s.requests = []) :
    Inv (s.emitEvent event) where
  frames := h.frames.emitEvent event fun _ hexited =>
    (h.course.ended hexited).resolve_right (Nat.pos_iff_ne_zero.mp hstarts)
  requests := h.requests.emitEvent event
  once := h.once.emits (emits_emitEvent s event)
  course := h.course.onward (onward_emitEvent s event) fun hc =>
    (emitEvent_completed hc).elim .inl hends

theorem Inv.withdrawRequest (h : Inv s) (key : RequestKey) (reason : String) :
    Inv (s.withdrawRequest key reason) where
  frames := h.frames.withdrawRequest key reason
  requests := h.requests.withdrawRequest key reason
  once := h.once.emits (emits_withdrawRequest s key reason)
  course := h.course.onward (onward_withdrawRequest s key reason).1 fun hc =>
    .inl ((onward_withdrawRequest s key reason).2 hc)

theorem Inv.closeRequests (h : Inv s) (reason : String) : Inv (s.closeRequests reason) where
  frames := h.frames.closeRequests reason
  requests := h.requests.closeRequests reason
  once := h.once.emits (emits_closeRequests s reason)
  course := h.course.closeRequests reason

/-- What acknowledgements and sent frames leave of the course. -/
theorem Course.congr (h : Course s) (hcontrol : s'.control = s.control)
    (hcompleted : s'.completed = s.completed) (hexited : s'.exited = s.exited)
    (haborted : s'.aborted = s.aborted) (hstarts : s'.starts = s.starts)
    (hdoing : s'.doing = s.doing) (hrequests : s'.requests = s.requests)
    (hsettled : s'.settled = s.settled) (hat : s'.openedAtInterrupt = s.openedAtInterrupt) :
    Course s' := by
  obtain ⟨h₁, h₂, h₃, h₄, h₅, h₆, h₇, h₈, h₉⟩ := h
  constructor <;> simpa only [hcontrol, hcompleted, hexited, haborted, hstarts, hdoing, hrequests,
    hsettled, hat]

theorem Course.ack (h : Course s) (id : CommandId) (error : Option String) :
    Course (s.ack id error) := by
  obtain ⟨_, _, heq⟩ := ack_eq s id error
  rw [heq]
  exact h.congr rfl rfl rfl rfl rfl rfl rfl rfl rfl

theorem Inv.ack (h : Inv s) (id : CommandId) (error : Option String) : Inv (s.ack id error) :=
  ⟨h.frames.ack id error, h.requests.ack id error, h.once.ack id error, h.course.ack id error⟩

/-- The exit, of an attempt that ended with none of its requests open. -/
theorem Inv.exit (h : Inv s) (hends : s.completed ∨ s.starts = 0) (hleft : s.completed ∨ s.aborted)
    (hclosed : s.requests = []) : Inv s.exit := by
  refine ⟨h.frames.exit, h.requests.exit, ?_, ?_⟩
  · obtain ⟨_, _, _, heq⟩ := exit_eq s
    rw [heq]
    exact h.once.congr rfl rfl rfl rfl
  · obtain ⟨_, _, _, heq⟩ := exit_eq s
    rw [heq]
    exact ⟨fun _ => .inr (.inl rfl), h.course.started, h.course.starting, h.course.single, fun _ =>
      hends,
      fun _ => hleft, h.course.stopping, fun _ => hclosed, h.course.interrupted⟩

/-- The stop, where it finds a control to interrupt or nothing to end. -/
theorem Inv.stop (h : Inv s) (hflow : s.control ∨ s.completed ∨ s.starts = 0)
    (id : Option CommandId) : Inv (s.stop id) := by
  unfold State.stop
  split
  · exact h
  · rename_i hrun
    refine ⟨h.frames.congr rfl rfl rfl rfl, h.requests.congr rfl rfl rfl,
      h.once.congr rfl rfl rfl rfl, ?_⟩
    refine ⟨fun hs => ?_, h.course.started, fun id' hid' => ?_, h.course.single, h.course.ended,
      fun he => (h.course.left he).imp_right fun ha => absurd ha hrun, fun id' _ => ⟨rfl, hflow⟩,
      fun hc => ?_, h.course.interrupted⟩
    · rcases h.course.begun hs with hb | hb | ⟨id', hb⟩
      · exact .inl hb
      · exact .inr (.inl hb)
      · exact .inr (.inr ⟨id', mem_cons_of_mem _ hb⟩)
    · exact h.course.starting id' ((mem_cons.mp hid').resolve_left nofun)
    · rcases hc with hc | hc | ⟨_, hc⟩
      · exact h.course.closed (.inl hc)
      · exact h.course.closed (.inr (.inl hc))
      · exact absurd mem_cons_self (hc id)

/-- The harness that was called last returns. -/
theorem Course.pop (h : Course s) (hdoing : s.doing = d :: rest)
    (hbegun : 0 < s.starts → s.control ∨ s.exited ∨ ∃ id, .starting id ∈ rest)
    (hclosed : (∃ id, d = .stopping id) → s.requests = []) : Course { s with doing := rest } := by
  have hrest : ∀ {d' : Doing}, d' ∈ rest → d' ∈ s.doing := fun hd' =>
    hdoing ▸ mem_cons_of_mem d hd'
  refine { h with
      begun := hbegun, starting := fun id hid => h.starting id (hrest hid),
      stopping := fun id hid => h.stopping id (hrest hid), closed := fun hc => ?_ }
  rcases hc with hc | hc | ⟨haborted, hnone⟩
  · exact h.closed (.inl hc)
  · exact h.closed (.inr (.inl hc))
  · by_cases hd : ∃ id, d = .stopping id
    · exact hclosed hd
    · refine h.closed (.inr (.inr ⟨haborted, fun id hid => ?_⟩))
      rw [hdoing, mem_cons] at hid
      rcases hid with hid | hid
      · exact hd ⟨id, hid.symm⟩
      · exact hnone id hid

/-- What was begun is told by the rest of the stack, unless it is what returns. -/
theorem Course.begun_rest (h : Course s) (hdoing : s.doing = d :: rest)
    (hd : ∀ id, d ≠ .starting id) (hs : 0 < s.starts) :
    s.control ∨ s.exited ∨ ∃ id, .starting id ∈ rest := by
  rcases h.begun hs with hb | hb | ⟨id, hb⟩
  · exact .inl hb
  · exact .inr (.inl hb)
  · rw [hdoing, mem_cons] at hb
    rcases hb with hb | hb
    · exact absurd hb.symm (hd id)
    · exact .inr (.inr ⟨id, hb⟩)

theorem waiting_cons {doing : List Doing} (hdoing : doing = d :: rest) (hid : id' ∈ waiting doing) :
    id' ∈ waiting rest ∨ d = .starting id' ∨ d = .interrupting id' := by
  subst hdoing
  cases d with
  | starting id | interrupting id =>
    rcases mem_cons.mp hid with rfl | hid
    · simp
    · exact .inl hid
  | steering id | stopping id | ending id => exact .inl hid

def Doing.isStarting : Doing → Bool
  | .starting _ => true
  | _ => false

/-- What the runner relies on: with no request open the turn completes, and so on. -/
def Proper (s : State) : Event → Prop
  | .handle id (.start .admitted) => s.exited → s.control ∨ id ∈ s.taken
  | .emit (.turnCompleted _) | .failed | .finished => s.completed ∨ s.requests = []
  | .call true true => s.killed ∨ s.completed ∨ s.requests = []
  | .resume (some _) => s.doing.head?.any Doing.isStarting → s.completed ∨ s.requests = []
  | .request key signalAborted =>
    s.aborted ∨ signalAborted ∨ (s.completed = false ∧ key ∉ s.requests.map Prod.fst)
  | _ => True

/-- Popping what returns forgets at most the command that waited for it. -/
theorem known_pop (hdoing : s.doing = d :: rest) (h : Known s id') :
    Known { s with doing := rest } id' ∨ d = .starting id' ∨ d = .interrupting id' := by
  rcases h with h | h | h
  · exact .inl (.inl h)
  · exact .inl (.inr (.inl h))
  · exact (waiting_cons hdoing h).imp_left fun h => .inr (.inr h)

/-- The parts of a state that the frames and the requests are told by. -/
structure Same (s s' : State) : Prop where
  seq : s'.seq = s.seq
  written : s'.written = s.written
  exited : s'.exited = s.exited
  completed : s'.completed = s.completed
  requests : s'.requests = s.requests
  settled : s'.settled = s.settled
  opened : s'.opened = s.opened

theorem Inv.same (h : Inv s) (s' : State) (hsame : Same s s') (honce : Once s')
    (hcourse : Course s') : Inv s' :=
  ⟨h.frames.congr hsame.seq hsame.written hsame.exited hsame.completed,
    h.requests.congr hsame.requests hsame.settled hsame.opened, honce, hcourse⟩

/-- A command is acknowledged at last: it is known by that, and the others as before. -/
theorem Inv.answer (h : Inv s) (s' : State) (hsame : Same s s') (htaken : s'.taken = s.taken)
    (hknown : ∀ id', Known s id' → Known s' id' ∨ id' = id) (hcourse : Course s')
    (error : Option String) : Inv (s'.ack id error) where
  frames := (h.frames.congr hsame.seq hsame.written hsame.exited hsame.completed).ack id error
  requests := (h.requests.congr hsame.requests hsame.settled hsame.opened).ack id error
  once := Once.ackPopped htaken h.once hknown
  course := hcourse.ack id error

theorem Course.controlled (h : Course s) (hstarts : 0 < s.starts) :
    Course { s with control := true } :=
  { h with
      begun := fun _ => .inl rfl, started := fun _ => hstarts,
      stopping := fun id hid => ⟨(h.stopping id hid).1, .inl rfl⟩ }

/-- `adapter.start` returns its control, or throws. -/
theorem Inv.resumeStarting (h : Inv s) (hdoing : s.doing = .starting id :: rest)
    : Inv ({ s with control := true, doing := rest }.ack id none) ∧
      (s.completed ∨ s.requests = [] →
        Inv ({ (s.emitEvent (.turnCompleted .failed)).exit with doing := rest }.ack id none)) := by
  have hstarts := h.course.starting id (hdoing ▸ mem_cons_self)
  have hknown : ∀ {t : State}, t.doing = s.doing → ∀ id', Known t id' →
      Known { t with doing := rest } id' ∨ id' = id := by
    intro t ht id' hid'
    rcases known_pop (ht.trans hdoing) hid' with hk | hk | hk
    · exact .inl hk
    · cases hk
      exact .inr rfl
    · cases hk
  refine ⟨?_, fun hends => ?_⟩
  · refine h.answer { s with control := true, doing := rest } ⟨rfl, rfl, rfl, rfl, rfl, rfl, rfl⟩
      rfl (hknown rfl) ?_ none
    exact (h.course.controlled hstarts).pop hdoing (fun _ => .inl rfl) nofun
  · have hended := completed_emitEvent s .failed
    have hcompleted := h.emitEvent (.turnCompleted .failed) hstarts fun _ => hends
    have hnone : (s.emitEvent (.turnCompleted .failed)).requests = [] :=
      hcompleted.course.closed (.inl hended)
    have hexit := hcompleted.exit (.inl hended) (.inl hended) hnone
    have hpopped : (s.emitEvent (.turnCompleted .failed)).exit.doing = .starting id :: rest := by
      obtain ⟨_, _, _, heq⟩ := exit_eq (s.emitEvent (.turnCompleted .failed))
      obtain ⟨_, _, _, _, _, heq'⟩ := emits_emitEvent s (.turnCompleted .failed)
      rw [heq, heq', ← hdoing]
    refine hexit.answer { (s.emitEvent (.turnCompleted .failed)).exit with doing := rest }
      ⟨rfl, rfl, rfl, rfl, rfl, rfl, rfl⟩ rfl
      (hknown (hpopped.trans hdoing.symm)) ?_ none
    refine hexit.course.pop hpopped (fun _ => .inr (.inl ?_)) nofun
    obtain ⟨_, _, _, heq⟩ := exit_eq (s.emitEvent (.turnCompleted .failed))
    rw [heq]

/-- The abort signal's listeners return: the requests are closed, and the harness ended. -/
theorem Inv.resumeStopping (h : Inv s) {id : Option CommandId}
    (hdoing : s.doing = .stopping id :: rest) (reason : String) :
    Inv (if (s.closeRequests reason).control then
        { s.closeRequests reason with doing := .ending id :: rest }
      else { (s.closeRequests reason).exit with doing := rest }) := by
  have hclosed := h.closeRequests reason
  have hnone := h.course.closedNil reason
  have hsame : (s.closeRequests reason).doing = .stopping id :: rest := by
    obtain ⟨_, _, _, _, _, heq⟩ := emits_closeRequests s reason
    rw [heq, ← hdoing]
  have hflow := hclosed.course.stopping id (hsame ▸ mem_cons_self)
  generalize s.closeRequests reason = t at hclosed hnone hsame hflow ⊢
  split
  · rename_i hcontrol
    refine hclosed.same _ ⟨rfl, rfl, rfl, rfl, rfl, rfl, rfl⟩ (hclosed.once.congr rfl rfl rfl ?_) ?_
    · rw [hsame]
      rfl
    · have hpop := hclosed.course.pop hsame (fun _ => .inl hcontrol) fun _ => hnone
      exact hpop.push nofun nofun
  · rename_i hcontrol
    have hends := hflow.2.resolve_left hcontrol
    have hexit := hclosed.exit hends (.inr hflow.1) hnone
    obtain ⟨_, _, _, heq⟩ := exit_eq t
    have hpopped : t.exit.doing = .stopping id :: rest := by rw [heq, ← hsame]
    refine hexit.same _ ⟨rfl, rfl, rfl, rfl, rfl, rfl, rfl⟩ (hexit.once.congr rfl rfl rfl ?_) ?_
    · rw [hpopped]
      rfl
    · refine hexit.course.pop hpopped (fun _ => .inr (.inl ?_)) fun _ => ?_
      · rw [heq]
      · rw [heq]
        exact hnone

/-- Something returns that no command waits for. -/
theorem Inv.popped (h : Inv s) (hdoing : s.doing = d :: rest)
    (hstarting : ∀ id, d ≠ .starting id) (hinterrupting : ∀ id, d ≠ .interrupting id)
    (hstopping : ∀ id, d ≠ .stopping id) : Inv { s with doing := rest } := by
  refine h.same _ ⟨rfl, rfl, rfl, rfl, rfl, rfl, rfl⟩ (h.once.keep rfl fun id hid => ?_) ?_
  · rcases known_pop hdoing hid with hk | hk | hk
    · exact hk
    · exact absurd hk (hstarting id)
    · exact absurd hk (hinterrupting id)
  · exact h.course.pop hdoing (h.course.begun_rest hdoing hstarting)
      fun ⟨id, hd⟩ => absurd hd (hstopping id)

/-- **What returns keeps the invariant.** -/
theorem Inv.resume (h : Inv s) {threw : Option String} (hproper : Proper s (.resume threw))
    (hstep : s.resume threw = some s') : Inv s' := by
  rw [State.resume] at hstep
  split at hstep
  · cases hstep
  · rename_i id rest hdoing
    cases threw with
    | none =>
      cases hstep
      exact (h.resumeStarting hdoing).1
    | some message =>
      cases hstep
      refine (h.resumeStarting hdoing).2 (hproper ?_)
      rw [hdoing]
      rfl
  · rename_i id rest hdoing
    have hinv := h.popped hdoing nofun nofun nofun
    cases threw with
    | none =>
      cases hstep
      exact hinv
    | some message =>
      cases hstep
      exact hinv.ack _ _
  · rename_i id rest hdoing
    cases hstep
    refine h.answer { s with doing := rest } ⟨rfl, rfl, rfl, rfl, rfl, rfl, rfl⟩ rfl
      (fun id' hid' => ?_) (h.course.pop hdoing (h.course.begun_rest hdoing nofun) nofun) _
    rcases known_pop hdoing hid' with hk | hk | hk
    · exact .inl hk
    · cases hk
    · cases hk
      exact .inr rfl
  · rename_i id rest hdoing
    cases hstep
    exact h.resumeStopping hdoing _
  · rename_i id rest hdoing
    have hinv := h.popped hdoing nofun nofun nofun
    split at hstep
    · cases hstep
      exact hinv.ack _ _
    · cases hstep
      exact hinv

section

variable (h : Once s) (hnew : ¬ Known s id) (htaken : s'.taken = s.taken ++ [id])
  (hknown : ∀ id', Known s id' → Known s' id')
include h hnew htaken hknown

/-- A command that was not known is taken: it is the last of them. -/
theorem Once.first (hid : Known s' id) : Once s' := by
  refine ⟨?_, fun id' hid' => ?_⟩
  · rw [htaken, nodup_append]
    refine ⟨h.nodup, nodup_singleton id, fun a ha b hb heq => hnew ?_⟩
    rw [mem_singleton] at hb
    exact h.known id (hb ▸ heq ▸ ha)
  · rw [htaken, mem_append, mem_singleton] at hid'
    rcases hid' with hid' | rfl
    · exact hknown id' (h.known id' hid')
    · exact hid

/-- A command that is acknowledged at once. -/
theorem Once.firstAck (error : Option String) : Once (s'.ack id error) := by
  refine h.first hnew ?_ (fun id' hid' => (known_ack s' id error).2 id' (hknown id' hid'))
    (known_ack s' id error).1
  obtain ⟨_, _, heq⟩ := ack_eq s' id error
  rw [heq]
  exact htaken

end

/-- With no request waiting, every promise was settled. -/
theorem Requests.settled_of_nil (h : Requests s) (hnil : s.requests = []) :
    ∀ n < s.opened, n ∈ s.settled := by
  intro n hn
  have hall := h.all.mem_iff (a := n)
  rw [hnil, map_nil, append_nil, mem_range] at hall
  exact hall.mpr hn

/-- `interrupt` closes what waits: every promise made so far is settled. -/
theorem Course.interrupt (h : Course s) (hrequests : Requests s) (reason : String) :
    Course { s.closeRequests reason with openedAtInterrupt := s.opened } := by
  obtain ⟨h₁, h₂, h₃, h₄, h₅, h₆, h₇, h₈, _⟩ := h.closeRequests reason
  refine ⟨h₁, h₂, h₃, h₄, h₅, h₆, h₇, h₈, fun n hn => ?_⟩
  have hopened : (s.closeRequests reason).opened = s.opened := by
    obtain ⟨_, _, _, _, _, heq⟩ := emits_closeRequests s reason
    rw [heq]
  exact (hrequests.closeRequests reason).settled_of_nil (h.closedNil reason) n (hopened ▸ hn)

section

variable (h : Inv s) (hnew : ¬ Known s id)
include h hnew

/-- What a command answered at once comes to, before it is acknowledged. -/
theorem Inv.firstAck (s' : State) (hframes : Frames s')
    (hrequests : Requests s') (hcourse : Course s') (htaken : s'.taken = s.taken ++ [id])
    (hknown : ∀ id', Known s id' → Known s' id') (error : Option String) :
    Inv (s'.ack id error) where
  frames := hframes.ack id error
  requests := hrequests.ack id error
  once := h.once.firstAck hnew htaken hknown error
  course := hcourse.ack id error

/-- `start`, while the runner has no attempt and has not left. -/
theorem Inv.start (hdoing : s.doing = []) (hcontrol : s.control = false) (hrun : s.exited = false) :
    Inv { ({ s with taken := s.taken ++ [id] }.emitFrame .hello) with
      starts := s.starts + 1, doing := .starting id :: s.doing } := by
  have hnone : s.starts = 0 := by
    by_contra hstarts
    rcases h.course.begun (Nat.pos_of_ne_zero hstarts) with hb | hb | ⟨_, hb⟩
    · cases hcontrol.symm.trans hb
    · cases hrun.symm.trans hb
    · rw [hdoing] at hb
      cases hb
  have hframes : Frames ({ s with taken := s.taken ++ [id] }.emitFrame .hello) := by
    have htaken : Frames { s with taken := s.taken ++ [id] } := h.frames.congr rfl rfl rfl rfl
    exact htaken.emitFrame _ nofun rfl
  obtain ⟨_, _, heq⟩ := emitFrame_eq { s with taken := s.taken ++ [id] } .hello
  rw [heq] at hframes ⊢
  refine ⟨hframes.congr rfl rfl rfl rfl, h.requests.congr rfl rfl rfl, ?_, ?_⟩
  · refine h.once.first hnew rfl (fun id' hid' => ?_) (.inr (.inr mem_cons_self))
    exact hid'.imp_right fun hid' => hid'.imp_right (mem_cons_of_mem _)
  · have hnot : ¬ s.exited := fun he => by cases hrun.symm.trans he
    refine ⟨fun _ => .inr (.inr ⟨id, mem_cons_self⟩), fun _ => Nat.succ_pos _,
      fun _ _ => Nat.succ_pos _, ?_, fun he => absurd he hnot, fun he => absurd he hnot,
      fun id' hid' => ?_, fun hc => ?_, h.course.interrupted⟩
    · show s.starts + 1 ≤ 1
      rw [hnone]
    · rw [hdoing] at hid'
      cases mem_singleton.mp hid'
    · refine h.course.closed (hc.imp_right fun hc => hc.imp_right fun hc => ⟨hc.1, fun id' => ?_⟩)
      rw [hdoing]
      exact nofun

/-- `interrupt`, with the harness's own `interrupt` called or not. -/
theorem Inv.takeInterrupt (s' : State) (hframes : Frames s')
    (hrequests : Requests s') (hcourse : Course s') (htaken : s'.taken = s.taken ++ [id])
    (hknown : ∀ id', Known s id' → Known s' id') : Inv (s'.take id .interrupt) := by
  have hclosed := hcourse.interrupt hrequests "The turn was interrupted before it was answered."
  have hframes' := hframes.closeRequests "The turn was interrupted before it was answered."
  have hrequests' := hrequests.closeRequests "The turn was interrupted before it was answered."
  rw [State.take]
  obtain ⟨seq, written, completed, requests, settled, heq⟩ :=
    emits_closeRequests s' "The turn was interrupted before it was answered."
  rw [heq] at hclosed hframes' hrequests' ⊢
  split
  · refine ⟨hframes'.congr rfl rfl rfl rfl, hrequests'.congr rfl rfl rfl, ?_,
      hclosed.push nofun nofun⟩
    refine h.once.first hnew htaken (fun id' hid' => ?_) (.inr (.inr mem_cons_self))
    refine (hknown id' hid').imp_right fun hid' => hid'.imp_right fun hid' => ?_
    exact mem_cons_of_mem id hid'
  · exact h.firstAck hnew
      { s' with seq, written, completed, requests, settled, openedAtInterrupt := s'.opened }
      (hframes'.congr rfl rfl rfl rfl) (hrequests'.congr rfl rfl rfl) hclosed htaken hknown none

/-- **A command taken for the first time keeps the invariant.** -/
theorem Inv.take (hdoing : s.doing = [])
    (hrun : command = .start .admitted → s.control = false → s.exited = false) :
    Inv ({ s with taken := s.taken ++ [id] }.take id command) := by
  have htaken : Frames { s with taken := s.taken ++ [id] } ∧
      Requests { s with taken := s.taken ++ [id] } ∧ Course { s with taken := s.taken ++ [id] } :=
    ⟨h.frames.congr rfl rfl rfl rfl, h.requests.congr rfl rfl rfl,
      h.course.congr rfl rfl rfl rfl rfl rfl rfl rfl rfl⟩
  obtain ⟨hframes, hrequests, hcourse⟩ := htaken
  have hack : ∀ error, Inv ({ s with taken := s.taken ++ [id] }.ack id error) := h.firstAck hnew
    { s with taken := s.taken ++ [id] } hframes hrequests hcourse rfl
      (fun _ hid' => hid')
  have hsettle : ∀ {key promise}, s.requests.lookup key = some promise →
      Inv (({ s with taken := s.taken ++ [id] }.settle key promise).ack id none) := by
    intro key promise hlookup
    have hsettled : { s with taken := s.taken ++ [id] }.requests.lookup key = some promise :=
      hlookup
    exact h.firstAck hnew ({ s with taken := s.taken ++ [id] }.settle key promise)
      (hframes.congr rfl rfl rfl rfl) (hrequests.settle hsettled)
      (hcourse.onward (onward_settle hsettled) .inl) rfl (fun _ hid' => hid') none
  cases command with
  | start admission =>
    unfold State.take
    dsimp only
    split
    · exact hack _
    · rename_i hcontrol
      rw [Bool.not_eq_true] at hcontrol
      cases admission with
      | refused message => exact hack _
      | admitted => exact h.start hnew hdoing hcontrol (hrun rfl hcontrol)
  | steer =>
    rw [State.take]
    split
    · exact hack _
    · refine ⟨hframes.congr rfl rfl rfl rfl, hrequests.congr rfl rfl rfl, ?_, ?_⟩
      · refine h.once.first hnew rfl (fun id' hid' => ?_) (.inr (.inl mem_cons_self))
        exact hid'.imp_right fun hid' => hid'.imp_left (mem_cons_of_mem _)
      · have hpush := hcourse.push (d := .steering id) nofun nofun
        exact hpush.congr rfl rfl rfl rfl rfl rfl rfl rfl rfl
  | interrupt =>
    exact h.takeInterrupt hnew { s with taken := s.taken ++ [id] } hframes hrequests hcourse rfl
      fun _ hid' => hid'
  | respond key | release key =>
    rw [State.take]
    split
    · exact hack _
    · rename_i hlookup
      exact hsettle hlookup
  | hostResult callId =>
    exact h.firstAck hnew
      { s with taken := s.taken ++ [id], calls := s.calls.filter (· ≠ callId) }
      (hframes.congr rfl rfl rfl rfl) (hrequests.congr rfl rfl rfl)
      (hcourse.congr rfl rfl rfl rfl rfl rfl rfl rfl rfl) rfl (fun _ hid' => hid') none
  | stop =>
    refine (hack none).stop ?_ (some id)
    obtain ⟨_, _, heq⟩ := ack_eq { s with taken := s.taken ++ [id] } id none
    rw [heq]
    exact h.course.flow hdoing

end

/-- **A command frame keeps the invariant.** -/
theorem Inv.handle (h : Inv s) (hproper : Proper s (.handle id command))
    (hdoing : s.doing = []) : Inv (s.handle id command) := by
  rw [State.handle]
  split
  · exact h
  · rename_i hflight
    split
    · refine ⟨h.frames.emitFrame _ nofun rfl, h.requests.emitFrame _,
        h.once.emits (emits_emitFrame s _), h.course.onward (onward_emitFrame s _) fun hc => ?_⟩
      obtain ⟨_, _, heq⟩ := emitFrame_eq s (.ack id _)
      rw [heq] at hc
      exact .inl hc
    · rename_i hseen
      have hnew : ¬ Known s id := by
        rintro (hk | hk | hk)
        · rw [hseen] at hk
          cases hk
        · exact hflight hk
        · rw [hdoing] at hk
          cases hk
      refine h.take hnew hdoing fun hstart hcontrol => Bool.eq_false_iff.mpr fun hexited => ?_
      subst hstart
      rcases hproper hexited with hc | hc
      · cases hcontrol.symm.trans hc
      · exact hnew (h.once.known id hc)

/-- `kill` lets go of every request, and then stops. -/
theorem Inv.kill (h : Inv s) (hdoing : s.doing = []) : Inv s.kill := by
  have hrequests : Requests { s with
      killed := true, calls := [], requests := [],
      settled := s.settled ++ s.requests.map Prod.snd } := by
    refine ⟨nodup_nil, ?_⟩
    rw [map_nil, append_nil]
    exact h.requests.all
  have hreleased : Inv { s with
      killed := true, calls := [], requests := [],
      settled := s.settled ++ s.requests.map Prod.snd } := by
    refine ⟨h.frames.congr rfl rfl rfl rfl, hrequests, h.once.congr rfl rfl rfl rfl, ?_⟩
    obtain ⟨h₁, h₂, h₃, h₄, h₅, h₆, h₇, _, h₉⟩ := h.course
    exact ⟨h₁, h₂, h₃, h₄, h₅, h₆, h₇, fun _ => rfl, fun n hn => mem_append_left _ (h₉ n hn)⟩
  exact hreleased.stop (h.course.flow hdoing) none

section

variable (h : Inv s) (hstarts : 0 < s.starts)
include h hstarts

/-- A call of the harness; one too large to be stored fails the attempt. -/
theorem Inv.call {append tooLarge : Bool}
    (hproper : Proper s (.call append tooLarge)) : Inv (s.call append tooLarge) := by
  unfold State.call
  split
  · exact h
  · rename_i hkilled
    cases tooLarge with
    | true =>
      cases append with
      | true =>
        have hends := h.emitEvent (.turnCompleted .failed) hstarts
          fun _ => hproper.resolve_left hkilled
        exact hends.stop (.inr (.inl (completed_emitEvent s .failed))) none
      | false => exact h
    | false =>
      have hcounted : Frames { s with
          callCounter := s.callCounter + 1, calls := s.calls ++ [s.callCounter + 1] } :=
        h.frames.congr rfl rfl rfl rfl
      have hframes := hcounted.emitFrame (.call (s.callCounter + 1)) nofun rfl
      obtain ⟨_, _, heq⟩ := emitFrame_eq { s with
        callCounter := s.callCounter + 1, calls := s.calls ++ [s.callCounter + 1] }
        (.call (s.callCounter + 1))
      rw [heq] at hframes ⊢
      exact ⟨hframes, h.requests.congr rfl rfl rfl, h.once.congr rfl rfl rfl rfl,
        h.course.congr rfl rfl rfl rfl rfl rfl rfl rfl rfl⟩

/-- A request is refused once the runner stopped, and else waits under a key of its own. -/
theorem Inv.openRequest {signalAborted : Bool} (hproper : Proper s (.request key signalAborted)) :
    Inv (s.openRequest key signalAborted) := by
  unfold State.openRequest
  split
  · refine ⟨h.frames.congr rfl rfl rfl rfl, h.requests.refuse, h.once.congr rfl rfl rfl rfl, ?_⟩
    obtain ⟨h₁, h₂, h₃, h₄, h₅, h₆, h₇, h₈, h₉⟩ := h.course
    exact ⟨h₁, h₂, h₃, h₄, h₅, h₆, h₇, h₈, fun n hn => mem_append_left _ (h₉ n hn)⟩
  · rename_i hopen
    rw [Bool.or_eq_true, not_or] at hopen
    obtain ⟨haborted, hsignal⟩ := hopen
    obtain ⟨hfresh, hkey⟩ := (hproper.resolve_left haborted).resolve_left hsignal
    have hset : Inv (s.setRequest key) := by
      refine ⟨h.frames.congr rfl rfl rfl rfl, h.requests.setRequest hkey,
        h.once.congr rfl rfl rfl rfl, ?_⟩
      obtain ⟨h₁, h₂, h₃, h₄, h₅, h₆, h₇, _, h₉⟩ := h.course
      refine ⟨h₁, h₂, h₃, h₄, h₅, h₆, h₇, fun hc => ?_, h₉⟩
      -- The turn runs and nobody stopped it, so nothing had to be closed.
      have hcompleted : ¬ s.completed := fun hc => by cases hfresh.symm.trans hc
      rcases hc with hc | hc | ⟨hc, _⟩
      · exact absurd hc hcompleted
      · exact absurd (h₆ hc) (not_or.mpr ⟨hcompleted, haborted⟩)
      · exact absurd hc haborted
    exact hset.emitEvent _ hstarts fun ⟨_, hne⟩ => nomatch hne

/-- The harness settles: the turn ends if it did not yet, and the runner leaves. -/
theorem Inv.finish (hproper : s.completed ∨ s.requests = []) : Inv s.endUnfinished.exit := by
  have hended : s.endUnfinished.completed := by
    unfold State.endUnfinished
    split
    · assumption
    · exact completed_emitEvent s _
  have hinv : Inv s.endUnfinished := by
    unfold State.endUnfinished
    split
    · exact h
    · exact h.emitEvent _ hstarts fun _ => hproper
  exact hinv.exit (.inl hended) (.inl hended) (hinv.course.closed (.inl hended))

end

/-- **Every step that meets the condition keeps the invariant.** -/
theorem inv_step {e : Event} (h : Inv s) (hproper : Proper s e) (hstep : step s e = some s') :
    Inv s' := by
  cases e with
  | handle id command =>
    rw [step, ite_none_right_eq_some, some.injEq] at hstep
    obtain ⟨hdoing, rfl⟩ := hstep
    exact h.handle hproper hdoing
  | kill =>
    rw [step, ite_none_right_eq_some, some.injEq] at hstep
    obtain ⟨hdoing, rfl⟩ := hstep
    exact h.kill hdoing
  | resume threw => exact h.resume hproper hstep
  | emit event =>
    rw [step, ite_none_right_eq_some, some.injEq] at hstep
    obtain ⟨hstarts, rfl⟩ := hstep
    refine h.emitEvent _ hstarts fun ⟨status, hevent⟩ => ?_
    subst hevent
    exact hproper
  | call append tooLarge =>
    rw [step, ite_none_right_eq_some, some.injEq] at hstep
    obtain ⟨hstarts, rfl⟩ := hstep
    exact h.call hstarts hproper
  | request key signalAborted =>
    rw [step, ite_none_right_eq_some, some.injEq] at hstep
    obtain ⟨hstarts, rfl⟩ := hstep
    exact h.openRequest hstarts hproper
  | withdraw key =>
    rw [step, ite_none_right_eq_some, some.injEq] at hstep
    obtain ⟨_, rfl⟩ := hstep
    exact h.withdrawRequest key _
  | steered id error =>
    rw [step, ite_none_right_eq_some, some.injEq] at hstep
    obtain ⟨_, rfl⟩ := hstep
    refine h.answer { s with inFlight := s.inFlight.filter (· ≠ id) }
      ⟨rfl, rfl, rfl, rfl, rfl, rfl, rfl⟩ rfl (fun id' hid' => ?_)
      (h.course.congr rfl rfl rfl rfl rfl rfl rfl rfl rfl) error
    by_cases heq : id' = id
    · exact .inr heq
    · refine .inl (hid'.imp_right fun hid' => hid'.imp_left fun hid' => ?_)
      exact mem_filter.mpr ⟨hid', decide_eq_true heq⟩
  | failed =>
    rw [step, ite_none_right_eq_some, some.injEq] at hstep
    obtain ⟨⟨_, hcontrol⟩, rfl⟩ := hstep
    exact h.emitEvent _ (h.course.started hcontrol) fun _ => hproper
  | finished =>
    rw [step, ite_none_right_eq_some, some.injEq] at hstep
    obtain ⟨⟨_, hcontrol⟩, rfl⟩ := hstep
    exact h.finish (h.course.started hcontrol) hproper

/-! ## Runs -/

/-- What the frames written and the promises made say of a run up to now. -/
structure Sound (s : State) : Prop where
  numbered : s.written.map Frame.seq = List.range' 1 s.seq
  /-- The exit is the last frame, and the only exit. -/
  exitLast : s.exited → ∃ front, s.written = front ++ [⟨s.seq, .exit⟩] ∧
    ∀ frame ∈ front, frame.body ≠ .exit
  exitOnly : s.exited = false → ∀ frame ∈ s.written, frame.body ≠ .exit
  attempts : s.starts ≤ 1
  completedOnce : completions s ≤ 1
  /-- An attempt that was begun has its end written when the runner leaves. -/
  completedBefore : s.exited → 0 < s.starts → completions s = 1
  taken : s.taken.Nodup
  settledOnce : s.settled.Nodup
  /-- A promise is settled or waits for its answer. -/
  promises : ∀ n < s.opened, n ∈ s.settled ∨ n ∈ s.requests.map Prod.snd
  /-- After the completion, a failure, a stop, a kill or the exit, none waits. -/
  released : (s.completed ∨ s.exited ∨ (s.aborted ∧ ∀ id, .stopping id ∉ s.doing)) →
    ∀ n < s.opened, n ∈ s.settled
  /-- After an interrupt, none waits of those made before it. -/
  interrupted : ∀ n < s.openedAtInterrupt, n ∈ s.settled

theorem Inv.sound (h : Inv s) : Sound s where
  numbered := h.frames.numbered
  exitLast := h.frames.last
  exitOnly := h.frames.open'
  attempts := h.course.single
  completedOnce := by
    rw [h.frames.ends]
    split <;> decide
  completedBefore := fun hexited hstarts => by
    rw [h.frames.ends, if_pos ((h.course.ended hexited).resolve_right
      (Nat.pos_iff_ne_zero.mp hstarts))]
  taken := h.once.nodup
  settledOnce := by
    have hnodup := h.requests.all.nodup_iff.mpr nodup_range
    exact (nodup_append.mp hnodup).1
  promises := fun n hn =>
    mem_append.mp (h.requests.all.mem_iff.mpr (mem_range.mpr hn))
  released := fun hover => h.requests.settled_of_nil (h.course.closed hover)
  interrupted := h.course.interrupted

instance (s : State) (e : Event) : Decidable (Proper s e) :=
  match e with
  | .handle id (.start .admitted) =>
    inferInstanceAs (Decidable (s.exited → s.control ∨ id ∈ s.taken))
  | .emit (.turnCompleted _) | .failed | .finished =>
    inferInstanceAs (Decidable (s.completed ∨ s.requests = []))
  | .call true true => inferInstanceAs (Decidable (s.killed ∨ s.completed ∨ s.requests = []))
  | .resume (some _) =>
    inferInstanceAs (Decidable (s.doing.head?.any Doing.isStarting → s.completed ∨ s.requests =
      []))
  | .request key signalAborted =>
    inferInstanceAs (Decidable
      (s.aborted ∨ signalAborted ∨ (s.completed = false ∧ key ∉ s.requests.map Prod.fst)))
  | .handle _ (.start (.refused _)) | .handle _ .steer | .handle _ .interrupt
  | .handle _ (.respond _) | .handle _ (.release _) | .handle _ (.hostResult _) | .handle _ .stop
  | .kill | .resume none | .emit (.requestOpened _) | .emit (.requestClosed _ _) | .emit .other
  | .call true false | .call false _ | .withdraw _ | .steered _ _ => .isTrue trivial

/-- **Every run of the attempt runner that meets the condition is sound.** -/
theorem attempt_sound (h : Runs.Reach step Proper State.initial s) : Sound s :=
  (h.invariant inv_initial fun _ _ _ => inv_step).sound

/-- An attempt with a question answered and one interrupted, a steer, a repeated command and
an oversized append. -/
def answered : List Event :=
  [.handle 1 (.start .admitted), .resume none, .request 7 false, .handle 2 (.respond 7),
    .handle 2 (.respond 7), .handle 3 .steer, .resume none, .request 8 false,
    .handle 4 .interrupt, .resume none, .steered 3 none, .call true true, .resume none,
    .resume none, .request 9 false, .finished]

/-- The run exits with its three promises settled. -/
theorem attempt_sound_answered :
    ∃ s, Runs.Reach step Proper State.initial s ∧ s.exited = true ∧ s.settled = [0, 1, 2] ∧
      Sound s := by
  have hrun : (Runs.execOk step Proper State.initial answered).map
      (fun s => (s.exited, s.settled)) = some (true, [0, 1, 2]) := by
    decide +kernel
  obtain ⟨s, hs, hend⟩ := map_eq_some_iff.mp hrun
  obtain ⟨hexited, hsettled⟩ := Prod.mk.inj hend
  exact ⟨s, Runs.reach_of_execOk hs, hexited, hsettled, attempt_sound (Runs.reach_of_execOk hs)⟩

/-- A question is asked, and the turn completed before it is answered. -/
def unanswered : List Event :=
  [.handle 1 (.start .admitted), .resume none, .request 7 false,
    .emit (.turnCompleted .completed), .handle 2 .stop, .resume none, .resume none, .finished]

/-- After the completion, the stop and the exit, the question still waits for its answer. -/
theorem question_left_waiting : ¬ ∀ s, Runs.Reach step Runs.anyEvent State.initial s → Sound s := by
  intro hclaim
  have hrun : (Runs.exec step State.initial unanswered).map
      (fun s => (s.exited, s.opened, s.settled)) = some (true, 1, []) := by
    decide +kernel
  obtain ⟨s, hs, hend⟩ := map_eq_some_iff.mp hrun
  obtain ⟨hexited, hend⟩ := Prod.mk.inj hend
  obtain ⟨hopened, hsettled⟩ := Prod.mk.inj hend
  have hreleased := (hclaim s (Runs.reach_of_exec hs)).released (.inr (.inl hexited)) 0
    (hopened ▸ Nat.one_pos)
  rw [hsettled] at hreleased
  cases hreleased

end Catamorphic.Runner.Attempt
