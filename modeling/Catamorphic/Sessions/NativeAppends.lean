import Catamorphic.Sessions.TurnFence

/-!
# Native state is stored once and in order

A runner's append requests are stored by whoever reads them: with the frames that carry
them while the turn works, one by one with a mark on the attempt's row while an ended
attempt's runner winds down. Between the two runs the recorded cursor, which a wind-down
does not move; the marks say how far past it the requests were stored.
-/

namespace Catamorphic.Sessions.TurnEngine

open Runs Lease NativeState List Option

/-! ## Requests -/

/-- The requests of a process that were stored, in the order they were. -/
def Data.requests (d : Data) (p : Process) : List Append :=
  (d.stored.filter (·.1 = p)).map (·.2.2)

/-- Where a stored request's entries went. -/
def placeOf (x : Process × Nat × Append) : Place := ⟨x.2.1, x.2.2.subpath⟩

/-- The entries of all requests stored at a place, each `uuid` once. -/
def Data.entriesAt (d : Data) (place : Place) : List Entry :=
  ((d.stored.filter (placeOf · = place)).flatMap (·.2.2.entries)).foldl keep []

/-- The native state is what the stored requests say. -/
structure NativeOk (d : Data) : Prop where
  ordered : d.native.Ordered
  entries : ∀ place, d.native.entries place = d.entriesAt place

theorem nativeOk_store {d : Data} (h : NativeOk d) (p thread : Nat) (q : Append) :
    NativeOk (d.store p thread q) := by
  refine ⟨ordered_append h.ordered _ _, ?_⟩
  intro place
  unfold Data.store Data.entriesAt
  rw [append_entries h.ordered, h.entries, filter_append, flatMap_append, foldl_append]
  by_cases hp : place = ⟨thread, q.subpath⟩
  · subst hp
    simp [placeOf, Data.entriesAt]
  · rw [if_neg hp]
    simp [placeOf, Data.entriesAt, Ne.symm hp]

theorem foldl_store_rest (qs : List Append) (p thread : Nat) (d : Data) :
    (qs.foldl (fun d q => d.store p thread q) d).turn = d.turn ∧
      (qs.foldl (fun d q => d.store p thread q) d).sent = d.sent ∧
      (qs.foldl (fun d q => d.store p thread q) d).stored =
        d.stored ++ qs.map (fun q => (p, thread, q)) := by
  induction qs generalizing d with
  | nil => exact ⟨rfl, rfl, (append_nil _).symm⟩
  | cons q qs ih =>
    obtain ⟨hturn, hsent, hstored⟩ := ih (d.store p thread q)
    refine ⟨hturn, hsent, ?_⟩
    rw [foldl_cons, hstored]
    simp [Data.store]

theorem nativeOk_foldl_store (qs : List Append) {d : Data} (h : NativeOk d) (p thread : Nat) :
    NativeOk (qs.foldl (fun d q => d.store p thread q) d) := by
  induction qs generalizing d with
  | nil => exact h
  | cons q qs ih => exact ih (nativeOk_store h p thread q)

/-! ## The calls of a stretch of output -/

theorem calls_append (fs gs : List Frame) : calls (fs ++ gs) = calls fs ++ calls gs :=
  filterMap_append

theorem appends_append (fs gs : List Frame) : appends (fs ++ gs) = appends fs ++ appends gs := by
  unfold appends
  rw [calls_append, filterMap_append]

theorem append?_callId {e : CallId × HostCall} {q : Append} (h : append? e = some q) :
    q.callId = e.1 := by
  obtain ⟨c, call⟩ := e
  cases call with
  | append subpath entries =>
    rw [append?, some.injEq] at h
    rw [← h]
  | other => cases h

variable {q : Append}

theorem mem_keys_of_mem_appends {fs : List Frame} (h : q ∈ appends fs) :
    q.callId ∈ (calls fs).map Prod.fst := by
  obtain ⟨e, he, hq⟩ := mem_filterMap.mp h
  rw [append?_callId hq]
  exact mem_map_of_mem he

/-- Distinct calls have distinct appends. -/
theorem nodup_appends {es : List (CallId × HostCall)} (h : (es.map Prod.fst).Nodup) :
    ((es.filterMap append?).map Append.callId).Nodup := by
  induction es with
  | nil => exact nodup_nil
  | cons e es ih =>
    rw [map_cons, nodup_cons] at h
    cases hq : append? e with
    | none =>
      rw [filterMap_cons_none hq]
      exact ih h.2
    | some q =>
      rw [filterMap_cons_some hq, map_cons, nodup_cons]
      refine ⟨?_, ih h.2⟩
      intro hmem
      obtain ⟨q', hq', heq⟩ := mem_map.mp hmem
      obtain ⟨e', he', hqe⟩ := mem_filterMap.mp hq'
      apply h.1
      rw [← append?_callId hq, ← heq, append?_callId hqe]
      exact mem_map_of_mem he'

variable {i j : Nat}

section

variable (output : Process → List Frame)

/-- The output up to an index goes on with the stretch from there. -/
theorem take_stretch (p : Process) (h : i ≤ j) :
    (output p).take j = (output p).take i ++ stretch output p i j := by
  have hsplit := (take_append_drop i ((output p).take j)).symm
  rwa [take_take, Nat.min_eq_left h] at hsplit

theorem appends_take (p : Process) (h : i ≤ j) : appends ((output p).take j) =
      appends ((output p).take i) ++ appends (stretch output p i j) := by
  rw [take_stretch output p h, appends_append]

theorem appends_take_prefix (p : Process) (i : Nat) :
    appends ((output p).take i) <+: appends (output p) := by
  conv => rhs; rw [← take_append_drop i (output p)]
  rw [appends_append]
  exact prefix_append _ _

end

/-! ## What a batch gathers -/

/-- The calls a batch does not know yet, each its own. -/
def New (known : List (CallId × HostCall)) (fs : List Frame) : Prop :=
  ((calls fs).map Prod.fst).Nodup ∧ ∀ e ∈ known, e.1 ∉ (calls fs).map Prod.fst

/-- What the loop over the frames finds, and where its records come from. -/
structure Gathered (b₀ b : Batch) (fs : List Frame) : Prop where
  appends : b.appends = b₀.appends ++ TurnEngine.appends fs
  calls : ∀ e ∈ b.calls, e ∈ b₀.calls ∨ e.1 ∈ (TurnEngine.calls fs).map Prod.fst
  added : ∀ e ∈ b.added, e ∈ b₀.added ∨
    (append? e = none ∧ e.1 ∈ (TurnEngine.calls fs).map Prod.fst)

variable {b : Batch} {c : CallId}

/-- A call that is not among the known ones is taken. -/
theorem frame_call (call : HostCall) (h : ∀ e ∈ b.calls, e.1 ≠ c) :
    (∃ call', (b.frame (.call c call)).calls = b.calls ++ [(c, call')]) ∧
      (b.frame (.call c call)).appends = b.appends ++ (append? (c, call)).toList ∧
      ∀ e ∈ (b.frame (.call c call)).added, e ∈ b.added ∨ append? e = none ∧ e.1 = c := by
  have hany : b.calls.any (·.1 = c) = false := by simpa using h
  cases call with
  | append subpath entries =>
    simp only [Batch.frame, hany]
    exact ⟨⟨_, rfl⟩, rfl, fun e => .inl⟩
  | other =>
    simp only [Batch.frame, hany]
    refine ⟨⟨_, rfl⟩, (append_nil _).symm, fun e he => ?_⟩
    rcases mem_append.mp he with he | he
    · exact .inl he
    · rw [mem_singleton.mp he]
      exact .inr ⟨rfl, rfl⟩

theorem gathered_foldl (fs : List Frame) (h : New b.calls fs) :
    Gathered b (fs.foldl Batch.frame b) fs := by
  induction fs generalizing b with
  | nil => exact ⟨(append_nil _).symm, fun _ => .inl, fun _ => .inl⟩
  | cons f fs ih =>
    cases f with
    | event | other =>
      obtain ⟨ha, hc, hd⟩ := ih (b := b) h
      exact ⟨ha, hc, hd⟩
    | ack c =>
      obtain ⟨ha, hc, hd⟩ := ih (b := b.frame (.ack c)) h
      exact ⟨ha, hc, hd⟩
    | call c call =>
      obtain ⟨hnodup, hnew⟩ := h
      have hkeys : (TurnEngine.calls (.call c call :: fs)).map Prod.fst =
          c :: (TurnEngine.calls fs).map Prod.fst := rfl
      rw [hkeys, nodup_cons] at hnodup
      obtain ⟨⟨call', hcalls⟩, happends, hadded⟩ := frame_call call
        fun e he heq => hnew e he (heq ▸ mem_cons_self)
      obtain ⟨ha, hc, hd⟩ := ih (b := b.frame (.call c call)) ⟨hnodup.2, fun e he => by
        rw [hcalls] at he
        rcases mem_append.mp he with he | he
        · exact fun hmem => hnew e he (mem_cons_of_mem _ hmem)
        · rw [mem_singleton.mp he]
          exact hnodup.1⟩
      refine ⟨?_, fun e he => ?_, fun e he => ?_⟩
      · rw [foldl_cons, ha, happends, append_assoc]
        cases call <;> rfl
      · rcases hc e he with he | he
        · rw [hcalls] at he
          rcases mem_append.mp he with he | he
          · exact .inl he
          · rw [mem_singleton.mp he]
            exact .inr mem_cons_self
        · exact .inr (mem_cons_of_mem _ he)
      · rcases hd e he with he | ⟨hno, he⟩
        · refine (hadded e he).imp_right fun ⟨hno, heq⟩ => ⟨hno, ?_⟩
          rw [heq]
          exact mem_cons_self
        · exact .inr ⟨hno, mem_cons_of_mem _ he⟩

/-! ## The invariant -/

section

variable (output : Process → List Frame)

/-- The append requests up to an index of a process's output. -/
abbrev appendsTo (p : Process) (i : Nat) : List Append := appends ((output p).take i)

/-- The calls up to an index. -/
abbrev keysTo (p : Process) (i : Nat) : List CallId := (calls ((output p).take i)).map Prod.fst

/-- What an attempt's row says of its runner's requests. -/
structure Recorded (d : Data) (r : RunnerState) : Prop where
  /-- All requests before the cursor are stored. -/
  covered : appendsTo output r.process r.cursor <+: d.requests r.process
  /-- Those stored past the cursor are marked. -/
  marked : ∀ q ∈ (d.requests r.process).drop (appendsTo output r.process r.cursor).length,
    q.callId ∈ r.applied
  /-- What is marked is stored. -/
  applied : ∀ c ∈ r.applied, c ∈ (d.requests r.process).map Append.callId
  /-- An append among the recorded calls is marked. -/
  calls : ∀ e ∈ r.calls, (append? e).isSome → e.1 ∈ r.applied
  /-- The recorded calls came before the cursor. -/
  known : ∀ e ∈ r.calls, e.1 ∈ keysTo output r.process r.cursor

/-- What is stored, recorded and answered. -/
structure Stored (d : Data) : Prop where
  /-- The requests stored are the first ones of the output, in order. -/
  inOrder : ∀ p, d.requests p <+: appends (output p)
  unread : ∀ p, d.processes ≤ p → d.requests p = []
  recorded : ∀ i r, d.runner i = some r → Recorded output d r
  /-- While the turn works nothing is stored past the cursor. -/
  working : d.turn = .working → ∀ r, d.runner (d.attempts.length - 1) = some r →
    d.requests r.process = appendsTo output r.process r.cursor
  native : NativeOk d
  /-- What was answered as stored is. -/
  sent : ∀ x ∈ d.sent, x.2 ∈ (d.requests x.1).map Append.callId

/--
The calls a holder goes through, against the row: the appends among them that are not
marked are the requests to be stored next.
-/
def Ahead (d : Data) (w : Attached) : Prop :=
  ∃ r, d.runner w.attempt = some r ∧ r.process = w.process ∧ r.cursor ≤ w.cursor ∧
    (w.todo.filterMap append?).filter (·.callId ∉ r.applied) =
      (appendsTo output w.process w.cursor).drop (d.requests w.process).length

/-- The memory of the turn's holder, against the turn. -/
def Attends (m : Local) (d : Data) : Prop :=
  match m with
  | .start | .finished => True
  | .ready turn i => d.turn = turn ∧ turn.active ∧ i = d.attempts.length - 1
  | .launched i p => d.turn = .preparing ∧ i = d.attempts.length - 1 ∧ d.requests p = []
  | .pump w => d.turn = .working ∧ w.attempt = d.attempts.length - 1 ∧ Ahead output d w ∧
      ∀ e ∈ w.calls, e.1 ∈ keysTo output w.process w.cursor
  | .drain turn i w => d.turn = turn ∧ turn.active ∧ turn ≠ .working ∧
      i = d.attempts.length - 1 ∧ Ahead output d w

end

/-- What any holder answers as stored is. -/
def Answers (m : Local) (d : Data) : Prop :=
  match m with
  | .pump w | .drain _ _ w => ∀ c ∈ w.results, c ∈ (d.requests w.process).map Append.callId
  | _ => True

/-- Of a wind-down, no append's transaction fails. -/
def KeepsWindDown (a : Action) (m : Local) : Prop :=
  match a, m with
  | .answer, .drain _ _ _ => False
  | _, _ => True

/-! ## Steps that store nothing -/

/-- The same record but for whether the runner was seen to end. -/
structure Alike (r r' : RunnerState) : Prop where
  process : r'.process = r.process
  cursor : r'.cursor = r.cursor
  calls : r'.calls = r.calls
  applied : r'.applied = r.applied

theorem Alike.refl (r : RunnerState) : Alike r r := ⟨rfl, rfl, rfl, rfl⟩

/-- Nothing stored or answered, and no runner's record changed. -/
structure Quiet (d d' : Data) : Prop where
  stored : d'.stored = d.stored
  native : d'.native = d.native
  sent : d'.sent = d.sent
  processes : d'.processes = d.processes
  runner : ∀ i r', d'.runner i = some r' → ∃ r, d.runner i = some r ∧ Alike r r'
  working : d'.turn = .working → d.turn = .working ∧ d'.attempts.length = d.attempts.length

variable {r : RunnerState} {w : Attached} {m m' : Local}
variable {f : Option RunnerState → Option RunnerState}

section

variable {output : Process → List Frame} {d d' : Data} {upTo : Nat} {turn : TurnStatus}
  {a : Attempt}

theorem requests_congr (h : d'.stored = d.stored) (p : Process) : d'.requests p = d.requests p := by
  unfold Data.requests
  rw [h]

theorem Recorded.alike {r' : RunnerState} (h : Recorded output d r) (hr : Alike r r')
    (hreq : d'.requests r.process = d.requests r.process) : Recorded output d' r' := by
  obtain ⟨hp, hc, hcalls, happlied⟩ := hr
  refine ⟨?_, ?_, ?_, ?_, ?_⟩
  · rw [hp, hc, hreq]
    exact h.covered
  · rw [hp, hc, hreq, happlied]
    exact h.marked
  · rw [hp, hreq, happlied]
    exact h.applied
  · rw [hcalls, happlied]
    exact h.calls
  · rw [hp, hc, hcalls]
    exact h.known

theorem nativeOk_congr (h : NativeOk d) (hs : d'.stored = d.stored) (hn : d'.native = d.native) :
    NativeOk d' := by
  refine ⟨?_, fun place => ?_⟩
  · rw [hn]
    exact h.ordered
  · rw [hn, h.entries]
    unfold Data.entriesAt
    rw [hs]

theorem Quiet.keeps (hq : Quiet d d') (h : Stored output d) : Stored output d' := by
  have hreq := requests_congr hq.stored
  refine ⟨?_, ?_, ?_, ?_, nativeOk_congr h.native hq.stored hq.native, ?_⟩
  · intro p
    rw [hreq]
    exact h.inOrder p
  · intro p
    rw [hq.processes, hreq]
    exact h.unread p
  · intro i r' hr'
    obtain ⟨r, hr, halike⟩ := hq.runner i r' hr'
    exact (h.recorded i r hr).alike halike (hreq _)
  · intro hw r' hr'
    obtain ⟨hw, hlen⟩ := hq.working hw
    rw [hlen] at hr'
    obtain ⟨r, hr, halike⟩ := hq.runner _ r' hr'
    rw [hreq, halike.process, halike.cursor]
    exact h.working hw r hr
  · intro x hx
    rw [hq.sent] at hx
    rw [hreq]
    exact h.sent x hx

/-- A holder goes on through its calls while its row is as it was. -/
theorem Ahead.alike {r' : RunnerState} (h : Ahead output d w) (hr : d.runner w.attempt = some r)
    (hr' : d'.runner w.attempt = some r') (halike : Alike r r') (hstored : d'.stored = d.stored) :
    Ahead output d' w := by
  obtain ⟨r₀, hr₀, hp, hc, htodo⟩ := h
  rw [hr, some.injEq] at hr₀
  subst hr₀
  refine ⟨r', hr', by rw [halike.process, hp], by rw [halike.cursor]; exact hc, ?_⟩
  rw [halike.applied, requests_congr hstored]
  exact htodo

theorem Ahead.same (h : Ahead output d w) (hr : d'.runner w.attempt = d.runner w.attempt)
    (hstored : d'.stored = d.stored) : Ahead output d' w := by
  obtain ⟨r, hr₀, hrest⟩ := h
  exact Ahead.alike ⟨r, hr₀, hrest⟩ hr₀ (hr.trans hr₀) (.refl r) hstored

theorem answers_congr (h : Answers m d) (hs : d'.stored = d.stored) : Answers m d' := by
  cases m with
  | pump w | drain turn i w =>
    intro c hc
    rw [requests_congr hs]
    exact h c hc
  | start | ready _ _ | launched _ _ | finished => trivial

/-- More is stored. -/
theorem answers_mono (h : Answers m d) (hs : d.stored <+: d'.stored) : Answers m d' := by
  have hreq : ∀ p, ∀ c ∈ (d.requests p).map Append.callId,
      c ∈ (d'.requests p).map Append.callId := by
    intro p c hc
    obtain ⟨l, hl⟩ := hs
    unfold Data.requests at hc ⊢
    rw [← hl, filter_append, map_append, map_append]
    exact mem_append_left _ hc
  cases m with
  | pump w | drain turn i w => exact fun c hc => hreq _ c (h c hc)
  | start | ready _ _ | launched _ _ | finished => trivial

/-- Runners of the attempts, when only other parts of the attempts changed. -/
theorem quiet_setAttempt (turn : TurnStatus) {f : Attempt → Attempt}
    (hf : ∀ a, (f a).runner = a.runner ∨ (f a).runner = none)
    (hturn : turn = .working → d.turn = .working) : Quiet d ({ d with turn }.setAttempt i f) := by
  refine ⟨rfl, rfl, rfl, rfl, ?_, ?_⟩
  · intro j r' hr'
    rw [runner_setAttempt] at hr'
    split at hr'
    · rename_i hji
      obtain ⟨a, ha, hfa⟩ := bind_eq_some_iff.mp hr'
      rcases hf a with hsame | hnone
      · refine ⟨r', ?_, .refl r'⟩
        rw [hji, Data.runner, show d.attempts[i]? = some a from ha, bind_some, ← hsame]
        exact hfa
      · rw [hnone] at hfa
        cases hfa
    · exact ⟨r', hr', .refl r'⟩
  · intro hw
    exact ⟨hturn hw, length_modify ..⟩

theorem quiet_turn (hturn : turn = .working → d.turn = .working) : Quiet d { d with turn } :=
  ⟨rfl, rfl, rfl, rfl, fun _ r' hr' => ⟨r', hr', .refl r'⟩, fun hw => ⟨hturn hw, rfl⟩⟩

theorem quiet_markEnded (d : Data) (j : Nat) :
    Quiet d (d.setRunner j (·.map fun r => { r with ended := true })) := by
  refine ⟨rfl, rfl, rfl, rfl, ?_, fun hw => ⟨hw, length_modify ..⟩⟩
  intro i r' hr'
  rw [runner_setRunner] at hr'
  split at hr'
  · rename_i hij
    obtain ⟨a, ha, hfa⟩ := bind_eq_some_iff.mp hr'
    obtain ⟨r, hr, heq⟩ := map_eq_some_iff.mp hfa
    refine ⟨r, ?_, ?_⟩
    · rw [hij, Data.runner, ha]
      exact hr
    · rw [← heq]
      exact ⟨rfl, rfl, rfl, rfl⟩
  · exact ⟨r', hr', .refl r'⟩

/-- The runner a holder in step saves is the recorded one. -/
theorem alike_runnerWrite (hp : r.process = w.process) (hc : r.cursor = w.cursor) :
    Alike r (runnerWrite (some r) w.process w.cursor [] []) := by
  refine ⟨hp.symm, hc.symm, ?_, append_nil _⟩
  simp [runnerWrite, merge]

/-! ## Requests of a runner are stored -/

theorem length_setRunner (d : Data) (i : Nat) (f : Option RunnerState → Option RunnerState) :
    (d.setRunner i f).attempts.length = d.attempts.length := length_modify ..

theorem runner_setRunner_some (hr : d.runner i = some r) (j : Nat) :
    (d.setRunner i f).runner j = if j = i then f (some r) else d.runner j := by
  rw [runner_setRunner]
  split
  · obtain ⟨a, ha, har⟩ := bind_eq_some_iff.mp hr
    rw [ha, bind_some, har]
  · rfl

/-- A recorded runner is one of a position. -/
theorem position_of_runner (h : d.runner i = some r) :
    d.position i = some (r.process, r.cursor) := by
  rw [Data.position, h]
  rfl

/-- Requests of a process are stored, and the record of its runner is set. -/
structure Puts (d d' : Data) (i : Nat) (p : Process) (thread : Nat) (r' : RunnerState)
    (qs : List Append) : Prop where
  stored : d'.stored = d.stored ++ qs.map (p, thread, ·)
  runner : ∀ j, d'.runner j = if j = i then some r' else d.runner j
  process : r'.process = p
  length : d'.attempts.length = d.attempts.length
  processes : d'.processes = d.processes
  turn : d'.turn = d.turn
  sent : d'.sent = d.sent
  native : NativeOk d'

section

variable {i thread : Nat} {p : Process} {r r' : RunnerState} {qs : List Append}

theorem puts_store (h : NativeOk d) (hr : d.runner i = some r) (hf : f (some r) = some r')
    (hp : r'.process = p) (thread : Nat) (qs : List Append) (ingested : List (Process × Nat)) :
    Puts d ((qs.foldl (fun (d : Data) q => d.store p thread q) { d with ingested }).setRunner i f)
      i p thread r' qs := by
  obtain ⟨hattempts, -, hprocesses⟩ := foldl_store qs p thread { d with ingested }
  obtain ⟨hturn, hsent, hstored⟩ := foldl_store_rest qs p thread { d with ingested }
  have hrunner : ∀ j, (qs.foldl (fun (d : Data) q => d.store p thread q)
      { d with ingested }).runner j = d.runner j := fun j => by rw [Data.runner, hattempts]; rfl
  refine ⟨hstored, fun j => ?_, hp, ?_, hprocesses, hturn, hsent, ?_⟩
  · rw [runner_setRunner_some ((hrunner i).trans hr), hf, hrunner]
  · rw [length_setRunner, hattempts]
  · have hnative : NativeOk { d with ingested } := nativeOk_congr h rfl rfl
    exact nativeOk_congr (nativeOk_foldl_store qs hnative p thread) rfl rfl

section

variable (hputs : Puts d d' i p thread r' qs)
include hputs

theorem Puts.requests (p' : Process) :
    d'.requests p' = d.requests p' ++ if p' = p then qs else [] := by
  unfold Data.requests
  rw [hputs.stored, filter_append, map_append]
  by_cases hp : p' = p
  · subst hp
    simp [List.filter_map, Function.comp_def]
  · simp [hp, Ne.symm hp]

theorem Puts.self : d'.requests p = d.requests p ++ qs := by
  rw [hputs.requests, if_pos rfl]

theorem Puts.other {p' : Process} (hp : p' ≠ p) : d'.requests p' = d.requests p' := by
  rw [hputs.requests, if_neg hp, append_nil]

theorem Puts.mono (p' : Process) :
    ∀ c ∈ (d.requests p').map Append.callId, c ∈ (d'.requests p').map Append.callId := by
  intro c hc
  rw [hputs.requests, map_append]
  exact mem_append_left _ hc

/-- **What is stored stays in step** with a record that says what was put. -/
theorem Puts.keeps (hread : Read d) (h : Stored output d)
    (hr : d.runner i = some r) (hp : r.process = p) (hrec : Recorded output d' r')
    (horder : d'.requests p <+: appends (output p))
    (hworking : d'.turn = .working → i = d.attempts.length - 1 ∧
      d'.requests p = appendsTo output p r'.cursor) : Stored output d' := by
  have hpos : d.position i = some (p, r.cursor) := hp ▸ position_of_runner hr
  refine ⟨fun p' => ?_, fun p' hle => ?_, fun j r₁ hr₁ => ?_, fun hw r₁ hr₁ => ?_, hputs.native,
    fun x hx => hputs.mono _ _ (h.sent x (hputs.sent ▸ hx))⟩
  · by_cases hp' : p' = p
    · exact hp' ▸ horder
    · rw [hputs.other hp']
      exact h.inOrder p'
  · rw [hputs.processes] at hle
    rw [hputs.other (Nat.ne_of_gt (Nat.lt_of_lt_of_le (hread.started _ _ _ hpos) hle))]
    exact h.unread p' hle
  · rw [hputs.runner] at hr₁
    split at hr₁
    · cases hr₁
      exact hrec
    · rename_i hne
      refine (h.recorded j r₁ hr₁).alike (.refl r₁) (hputs.other fun heq => hne ?_)
      exact hread.distinct _ _ _ _ _ (heq ▸ position_of_runner hr₁) hpos
  · obtain ⟨hlast, hnow⟩ := hworking hw
    rw [hputs.length, ← hlast, hputs.runner, if_pos rfl] at hr₁
    cases hr₁
    rw [hputs.process]
    exact hnow

end

end

/-! ## Frames are applied -/

/-- What `applyFrames` did, when it could. -/
theorem applyFrames_some (h : applyFrames output upTo w d = some (d', m')) :
    ∃ b d₁, b = Batch.frames w.calls (stretch output w.process w.cursor upTo) ∧
      d₁ = b.appends.foldl (fun d q => d.store w.process w.thread q)
        { d with ingested := d.ingested ++
            (List.range' w.cursor (upTo - w.cursor)).map (fun i => (w.process, i)) } ∧
      w.todo = [] ∧ w.cursor ≤ upTo ∧
      d' = d₁.setRunner w.attempt (fun r => some ((runnerWrite r w.process upTo
        (b.added ++ (b.appends.map Append.callId).map (·, appliedAppend))
        (b.appends.map Append.callId)).forget b.delivered)) ∧
      m' = .pump
        { w with
          cursor := upTo
          calls := b.calls.filter (fun e => e.1 ∉ b.delivered)
          results := w.results.filter (· ∉ b.delivered) ++ b.appends.map Append.callId } := by
  obtain ⟨⟨htodo, hle, _⟩, h⟩ := ite_none_right_eq_some.mp h
  cases h
  exact ⟨_, _, rfl, rfl, htodo, hle, rfl, rfl⟩

/-- The calls of a stretch are none of those before it. -/
theorem new_stretch (hids : ((calls (output w.process)).map Prod.fst).Nodup)
    (hle : w.cursor ≤ upTo) (hknown : ∀ e ∈ w.calls, e.1 ∈ keysTo output w.process w.cursor) :
    New w.calls (stretch output w.process w.cursor upTo) := by
  have hsplit : ((calls (output w.process)).map Prod.fst) =
      keysTo output w.process w.cursor ++
        ((calls (stretch output w.process w.cursor upTo)).map Prod.fst ++
          (calls ((output w.process).drop upTo)).map Prod.fst) := by
    conv => lhs; rw [← take_append_drop upTo (output w.process), take_stretch output _ hle]
    simp only [calls_append, map_append, append_assoc]
  rw [hsplit, nodup_append] at hids
  obtain ⟨_, hrest, hdisjoint⟩ := hids
  refine ⟨(nodup_append.mp hrest).1, ?_⟩
  intro e he hmem
  exact hdisjoint _ (hknown e he) _ (mem_append_left _ hmem) rfl

/-- The record a batch leaves of its runner. -/
theorem recorded_apply (d' : Data) (h : Recorded output d r)
    (hp : r.process = w.process) (hc : r.cursor = w.cursor) (hle : w.cursor ≤ upTo)
    (hb : Gathered { calls := w.calls } b (stretch output w.process w.cursor upTo))
    (hold : ∀ c ∈ (d.requests w.process).map Append.callId,
      c ∈ (d'.requests w.process).map Append.callId)
    (hreq : d'.requests w.process = appendsTo output w.process upTo) :
    Recorded output d' ((runnerWrite (some r) w.process upTo
      (b.added ++ (b.appends.map Append.callId).map (·, appliedAppend))
      (b.appends.map Append.callId)).forget b.delivered) := by
  have hkeys : keysTo output w.process upTo = keysTo output w.process w.cursor ++
      (calls (stretch output w.process w.cursor upTo)).map Prod.fst := by
    rw [keysTo, take_stretch output _ hle, calls_append, map_append]
  have happends : b.appends = appends (stretch output w.process w.cursor upTo) := hb.appends
  have hidsKeys : ∀ c ∈ b.appends.map Append.callId,
      c ∈ (calls (stretch output w.process w.cursor upTo)).map Prod.fst := by
    intro c hc
    obtain ⟨q, hq, rfl⟩ := mem_map.mp hc
    rw [happends] at hq
    exact mem_keys_of_mem_appends hq
  refine ⟨?_, ?_, ?_, ?_, ?_⟩
  · show appendsTo output w.process upTo <+: d'.requests w.process
    exact hreq ▸ prefix_rfl
  · show ∀ q ∈ (d'.requests w.process).drop (appendsTo output w.process upTo).length, _
    rw [hreq, drop_length]
    intro q hq
    cases hq
  · show ∀ c ∈ (r.applied ++ b.appends.map Append.callId).filter (· ∉ b.delivered), _
    intro c hc
    rcases mem_append.mp (mem_of_mem_filter hc) with hc | hc
    · exact hold c (by rw [← hp]; exact h.applied c hc)
    · show c ∈ (d'.requests w.process).map Append.callId
      rw [hreq, appendsTo, appends_take output _ hle, ← happends, map_append]
      exact mem_append_right _ hc
  · show ∀ e ∈ (merge r.calls (b.added ++ (b.appends.map Append.callId).map
      (·, appliedAppend))).filter (fun e => e.1 ∉ b.delivered), (append? e).isSome →
        e.1 ∈ (r.applied ++ b.appends.map Append.callId).filter (· ∉ b.delivered)
    intro e he hsome
    obtain ⟨he, hnot⟩ := mem_filter.mp he
    refine mem_filter.mpr ⟨?_, hnot⟩
    rcases mem_append.mp he with he | he
    · exact mem_append_left _ (h.calls e (mem_of_mem_filter he) hsome)
    · rcases mem_append.mp he with he | he
      · -- the calls a batch adds are no appends
        rcases hb.added e he with he | ⟨hno, _⟩
        · cases he
        · rw [hno] at hsome
          cases hsome
      · obtain ⟨c, hc, rfl⟩ := mem_map.mp he
        exact mem_append_right _ hc
  · show ∀ e ∈ (merge r.calls (b.added ++ (b.appends.map Append.callId).map
      (·, appliedAppend))).filter (fun e => e.1 ∉ b.delivered),
        e.1 ∈ keysTo output w.process upTo
    intro e he
    rw [hkeys]
    rcases mem_append.mp (mem_of_mem_filter he) with he | he
    · refine mem_append_left _ ?_
      rw [← hp, ← hc]
      exact h.known e (mem_of_mem_filter he)
    · refine mem_append_right _ ?_
      rcases mem_append.mp he with he | he
      · rcases hb.added e he with he | ⟨_, he⟩
        · cases he
        · exact he
      · obtain ⟨c, hc, rfl⟩ := mem_map.mp he
        exact hidsKeys c hc

/-- What a step keeps: the data, the memory of the holder that made it, all answers. -/
structure KeepsStored (output : Process → List Frame) (d d' : Data) (m' : Local) : Prop where
  stored : Stored output d'
  attends : Attends output m' d'
  answers : Answers m' d'
  grows : d.stored <+: d'.stored

/-- **A holder in step applies frames: their appends are stored after those before.** -/
theorem stored_applyFrames (hids : ((calls (output w.process)).map Prod.fst).Nodup)
    (hread : Read d) (h : Stored output d) (hm : InStep (.pump w) d)
    (hatt : Attends output (.pump w) d) (hans : Answers (.pump w) d)
    (happly : applyFrames output upTo w d = some (d', m')) : KeepsStored output d d' m' := by
  obtain ⟨b, d₁, hb, rfl, htodo, hle, rfl, rfl⟩ := applyFrames_some happly
  obtain ⟨hturn, hlast, ⟨r, hr, hp, _, _⟩, hknown⟩ := hatt
  have hc : r.cursor = w.cursor := by
    have := (position_of_runner hr).symm.trans hm
    rw [some.injEq, Prod.mk.injEq] at this
    exact this.2
  have hgath : Gathered { calls := w.calls } b (stretch output w.process w.cursor upTo) := by
    rw [hb]
    exact gathered_foldl _ (new_stretch hids hle hknown)
  have hbefore : d.requests w.process = appendsTo output w.process w.cursor := by
    have hwork := h.working hturn r (by rw [← hlast]; exact hr)
    rwa [hp, hc] at hwork
  have hputs := puts_store (p := w.process) h.native hr
    (f := fun r => some ((runnerWrite r w.process upTo
      (b.added ++ (b.appends.map Append.callId).map (·, appliedAppend))
      (b.appends.map Append.callId)).forget b.delivered)) rfl rfl w.thread b.appends
    (d.ingested ++ (List.range' w.cursor (upTo - w.cursor)).map (fun i => (w.process, i)))
  have hnow : _ = appendsTo output w.process upTo := hputs.self.trans (by
    rw [hbefore, hgath.appends]
    exact (appends_take output _ hle).symm)
  have hrec := recorded_apply _ (h.recorded _ r hr) hp hc hle hgath (hputs.mono _) hnow
  refine ⟨hputs.keeps hread h hr hp hrec (hnow ▸ appends_take_prefix output _ _)
    fun _ => ⟨hlast, hnow⟩, ?_, ?_, ?_⟩
  · have hrunner := (hputs.runner w.attempt).trans (if_pos rfl)
    refine ⟨hputs.turn.trans hturn, ?_, ⟨_, hrunner, rfl, Nat.le_refl upTo, ?_⟩, fun e he => ?_⟩
    · rw [hputs.length]
      exact hlast
    · show ((w.todo.filterMap append?).filter _) = (appendsTo output w.process upTo).drop _
      rw [htodo, hnow, drop_length]
      rfl
    · show e.1 ∈ keysTo output w.process upTo
      rw [keysTo, take_stretch output _ hle, calls_append, map_append, mem_append]
      rcases hgath.calls e (mem_of_mem_filter he) with he | he
      · exact .inl (hknown e he)
      · exact .inr he
  · intro c hc
    rcases mem_append.mp hc with hc | hc
    · exact hputs.mono _ c (hans c (mem_of_mem_filter hc))
    · rw [hputs.self, map_append]
      exact mem_append_right _ hc
  · rw [hputs.stored]
    exact prefix_append _ _

/-! ## An append is answered -/

/-- The next append leads those of the calls gone through. -/
theorem filterMap_of_next (h : w.next? = some q) :
    w.todo.filterMap append? = q :: w.todo.tail.filterMap append? := by
  unfold Attached.next? at h
  cases htodo : w.todo with
  | nil =>
    rw [htodo] at h
    cases h
  | cons e rest =>
    rw [htodo] at h
    exact filterMap_cons_some h

theorem filterMap_of_no_next (h : w.next? = none) :
    w.todo.filterMap append? = w.todo.tail.filterMap append? := by
  unfold Attached.next? at h
  cases htodo : w.todo with
  | nil => rfl
  | cons e rest =>
    rw [htodo] at h
    exact filterMap_cons_none h

section

variable (hr : d.runner w.attempt = some r)
include hr

/-- The attempt's row as an append is answered. -/
theorem marks_eq : ((d.runner w.attempt).map RunnerState.applied).getD [] = r.applied := by
  rw [hr]
  rfl

/-- An append that is marked is answered again, and not stored. -/
theorem answer_marked (hq : q.callId ∈ r.applied) : answerAppend w q d = d := by
  unfold answerAppend
  rw [marks_eq hr, if_pos (contains_iff_mem.mpr hq)]

/-- An append that is not marked is stored, and marked. -/
theorem answer_unmarked (hq : q.callId ∉ r.applied) :
    answerAppend w q d = (d.store w.process w.thread q).setRunner w.attempt
      (·.map fun r => { r with applied := r.applied ++ [q.callId] }) := by
  unfold answerAppend
  rw [marks_eq hr, if_neg (fun h => hq (contains_iff_mem.mp h))]

end

/-- Going past an append that is marked. -/
theorem Ahead.pastMarked (h : Ahead output d w) (hnext : w.next? = some q)
    (hr : d.runner w.attempt = some r) (hq : q.callId ∈ r.applied) :
    Ahead output d (w.answered q.callId) := by
  obtain ⟨r₀, hr₀, hp, hc, htodo⟩ := h
  rw [hr, some.injEq] at hr₀
  subst hr₀
  refine ⟨r, hr, hp, hc, ?_⟩
  rw [filterMap_of_next hnext, filter_cons_of_neg (by simpa using hq)] at htodo
  exact htodo

/-- While the turn works, what is left to answer is marked. -/
theorem marked_of_working (h : Stored output d) (hm : InStep (.pump w) d)
    (hatt : Attends output (.pump w) d) (hnext : w.next? = some q)
    (hr : d.runner w.attempt = some r) : q.callId ∈ r.applied := by
  obtain ⟨hturn, hlast, ⟨r₀, hr₀, hp, _, htodo⟩, _⟩ := hatt
  rw [hr, some.injEq] at hr₀
  subst hr₀
  have hpos := (position_of_runner hr).symm.trans hm
  rw [some.injEq, Prod.mk.injEq] at hpos
  have hnow := h.working hturn r (by rw [← hlast]; exact hr)
  rw [hpos.1, hpos.2] at hnow
  rw [hnow, drop_length, filter_eq_nil_iff] at htodo
  have hq := htodo q (by rw [filterMap_of_next hnext]; exact mem_cons_self)
  simpa using hq

/-- The appends not marked once one more is. -/
theorem filter_unmarked (l : List Append) (applied : List CallId) (c : CallId) :
    l.filter (·.callId ∉ applied ++ [c]) =
      (l.filter (·.callId ∉ applied)).filter (·.callId ≠ c) := by
  rw [List.filter_filter]
  refine filter_congr (fun q _ => ?_)
  simp [Bool.and_comm]

/-- A request taken in order goes on with those stored. -/
theorem append_next {A reqs : List Append} {rest : List Append} (hpre : reqs <+: A)
    (hdrop : A.drop reqs.length = q :: rest) : reqs ++ [q] <+: A := by
  obtain ⟨l, rfl⟩ := hpre
  rw [drop_left] at hdrop
  rw [hdrop]
  exact ⟨rest, by simp⟩

/-- **A holder that winds a runner down stores the next request, and marks it.** -/
theorem stored_answer (hids : ((calls (output w.process)).map Prod.fst).Nodup) (hread : Read d)
    (h : Stored output d) (hahead : Ahead output d w) (hturn : d.turn ≠ .working)
    (hnext : w.next? = some q) (hr : d.runner w.attempt = some r) (hq : q.callId ∉ r.applied) :
    Stored output (answerAppend w q d) ∧ Ahead output (answerAppend w q d) (w.answered q.callId) ∧
      (answerAppend w q d).stored = d.stored ++ [(w.process, w.thread, q)] := by
  obtain ⟨r₀, hr₀, hp, hcur, htodo⟩ := hahead
  rw [hr, some.injEq] at hr₀
  subst hr₀
  rw [answer_unmarked hr hq]
  rw [filterMap_of_next hnext, filter_cons_of_pos (by simpa using hq)] at htodo
  -- the request comes right after those stored
  obtain ⟨l, hl⟩ := appends_take_prefix output w.process w.cursor
  have hlen : (d.requests w.process).length ≤ (appendsTo output w.process w.cursor).length := by
    by_contra hlt
    rw [drop_eq_nil_of_le (by omega)] at htodo
    cases htodo
  have hA : (appends (output w.process)).drop (d.requests w.process).length =
      q :: ((w.todo.tail.filterMap append?).filter (·.callId ∉ r.applied) ++ l) := by
    rw [← hl, drop_append_of_le_length hlen, ← htodo]
    rfl
  have hpre := append_next (h.inOrder w.process) hA
  have hputs : Puts d ((d.store w.process w.thread q).setRunner w.attempt
      (·.map fun r => { r with applied := r.applied ++ [q.callId] })) w.attempt w.process w.thread
      { r with applied := r.applied ++ [q.callId] } [q] :=
    puts_store (f := Option.map fun r : RunnerState =>
      { r with applied := r.applied ++ [q.callId] })
      (p := w.process) h.native hr rfl hp w.thread [q] d.ingested
  generalize (d.store w.process w.thread q).setRunner w.attempt _ = d' at hputs ⊢
  have hrow := h.recorded _ r hr
  have hmarked : Recorded output d' { r with applied := r.applied ++ [q.callId] } := by
    refine ⟨?_, ?_, ?_, fun e he hsome => mem_append_left _ (hrow.calls e he hsome), hrow.known⟩
    · show appendsTo output r.process r.cursor <+: _
      rw [hp, hputs.self]
      rw [← hp]
      exact hrow.covered.trans (prefix_append _ _)
    · show ∀ q' ∈ (d'.requests r.process).drop (appendsTo output r.process r.cursor).length,
        q'.callId ∈ r.applied ++ [q.callId]
      rw [hp, hputs.self, ← hp, drop_append_of_le_length hrow.covered.length_le]
      intro q' hq'
      rcases mem_append.mp hq' with hq' | hq'
      · exact mem_append_left _ (hrow.marked q' hq')
      · rw [mem_singleton.mp hq']
        exact mem_append_right _ (mem_singleton_self _)
    · show ∀ c ∈ r.applied ++ [q.callId], c ∈ (d'.requests r.process).map Append.callId
      intro c hc
      rcases mem_append.mp hc with hc | hc
      · exact hputs.mono _ c (hrow.applied c hc)
      · rw [hp, hputs.self, map_append, mem_singleton.mp hc]
        exact mem_append_right _ (mem_singleton_self _)
  have hrunner := (hputs.runner w.attempt).trans (if_pos rfl)
  refine ⟨hputs.keeps hread h hr hp hmarked (hputs.self ▸ hpre)
    fun hw => absurd (hputs.turn.symm.trans hw) hturn, ⟨_, hrunner, hp, hcur, ?_⟩, hputs.stored⟩
  · show (w.todo.tail.filterMap append?).filter (·.callId ∉ r.applied ++ [q.callId]) =
      (appendsTo output w.process w.cursor).drop (d'.requests w.process).length
    have hrest : (w.todo.tail.filterMap append?).filter (·.callId ∉ r.applied) =
        (appendsTo output w.process w.cursor).drop ((d.requests w.process).length + 1) := by
      rw [← drop_drop, ← htodo]
      rfl
    -- no later request has this one's id
    have hlater : ∀ q' ∈ (appendsTo output w.process w.cursor).drop
        ((d.requests w.process).length + 1), q'.callId ≠ q.callId := by
      have hnodup := nodup_appends hids
      rw [show (calls (output w.process)).filterMap append? = appends (output w.process) from rfl,
        ← take_append_drop (d.requests w.process).length (appends (output w.process)), hA,
        map_append, map_cons, nodup_append] at hnodup
      intro q' hq' heq
      rw [← hrest] at hq'
      refine (nodup_cons.mp hnodup.2.1).1 ?_
      rw [← heq]
      exact mem_map_of_mem (mem_append_left _ hq')
    rw [hputs.self, length_append, length_singleton, ← hrest]
    rw [← hrest] at hlater
    rw [filter_unmarked]
    exact filter_eq_self.mpr (fun q' hq' => by simpa using hlater q' hq')

/-! ## Runners that are launched, found again and read on -/

theorem runner_launch {p : Process} (ha : d.attempts[i]? = some a) (j : Nat) :
    ({ d with turn := .working }.setAttempt i fun a =>
      { a with status := .running, runner := some ⟨p, 0, [], [], false⟩ }).runner j =
      if j = i then some ⟨p, 0, [], [], false⟩ else d.runner j := by
  rw [runner_setAttempt]
  split
  · rw [show ({ d with turn := .working } : Data).attempts[i]? = some a from ha]
    rfl
  · rfl

/-- A new runner has nothing stored. -/
theorem stored_launch {p thread : Nat} (h : Stored output d)
    (hatt : Attends output (.launched i p) d) (ha : d.attempts[i]? = some a) :
    KeepsStored output d ({ d with turn := .working }.setAttempt i fun a =>
      { a with status := .running, runner := some ⟨p, 0, [], [], false⟩ })
      (.pump ⟨i, thread, p, 0, [], [], []⟩) := by
  obtain ⟨_, hlast, hnone⟩ := hatt
  have hrun := runner_launch (d := d) (p := p) ha
  have hlen : ({ d with turn := .working }.setAttempt i fun a =>
      { a with status := .running, runner := some ⟨p, 0, [], [], false⟩ }).attempts.length =
      d.attempts.length := length_modify ..
  refine ⟨⟨h.inOrder, h.unread, ?_, ?_, nativeOk_congr h.native rfl rfl, h.sent⟩, ?_, ?_, ?_⟩
  · intro j r' hr'
    rw [hrun] at hr'
    split at hr'
    · cases hr'
      refine ⟨List.nil_prefix, ?_, ?_, ?_, ?_⟩
      · intro q hq
        change q ∈ (d.requests p).drop _ at hq
        rw [hnone, drop_nil] at hq
        cases hq
      all_goals
        intro c hc
        cases hc
    · exact (h.recorded j r' hr').alike (.refl r') rfl
  · intro _ r' hr'
    rw [hlen, ← hlast, hrun, if_pos rfl, some.injEq] at hr'
    rw [← hr']
    exact hnone
  · refine ⟨rfl, by rw [hlen]; exact hlast, ⟨_, (hrun i).trans (if_pos rfl), rfl, Nat.le_refl 0,
      ?_⟩,
      fun e he => by cases he⟩
    exact drop_nil.symm
  · exact fun c hc => by cases hc
  · exact prefix_rfl

theorem attach_some (h : d.attach j = some w) :
    ∃ r, d.runner j = some r ∧ w.attempt = j ∧ w.process = r.process ∧ w.cursor = r.cursor ∧
      w.calls = r.calls ∧ w.todo = r.calls ∧ w.results = [] := by
  unfold Data.attach at h
  split at h
  · rename_i r ha
    cases h
    refine ⟨r, ?_, rfl, rfl, rfl, rfl, rfl, rfl⟩
    rw [Data.runner, ha]
    rfl
  · cases h

/-- The calls recorded of a runner found again are all marked. -/
theorem ahead_attach (h : Stored output d) (hw : d.attach j = some w) : Ahead output d w := by
  obtain ⟨r, hr, hj, hp, hc, _, htodo, _⟩ := attach_some hw
  have hrow := h.recorded j r hr
  refine ⟨r, by rw [hj]; exact hr, hp.symm, Nat.le_of_eq hc.symm, ?_⟩
  rw [htodo, hp, hc, drop_eq_nil_of_le hrow.covered.length_le, filter_eq_nil_iff]
  intro q hq
  obtain ⟨e, he, heq⟩ := mem_filterMap.mp hq
  have := hrow.calls e he (by rw [heq]; rfl)
  rw [append?_callId heq]
  simpa using this

/-- The calls after the cursor are read: those stored are marked, the others come next. -/
theorem ahead_readOn {results : List CallId}
    (hids : ((calls (output w.process)).map Prod.fst).Nodup) (h : Stored output d)
    (hahead : Ahead output d w) (htodo : w.todo = []) (hle : w.cursor ≤ upTo) : Ahead output d
      { w with
        cursor := upTo
        todo := calls (stretch output w.process w.cursor upTo)
        results } := by
  obtain ⟨r, hr, hp, hc, hahead⟩ := hahead
  refine ⟨r, hr, hp, Nat.le_trans hc hle, ?_⟩
  show (appends (stretch output w.process w.cursor upTo)).filter (·.callId ∉ r.applied) =
    (appendsTo output w.process upTo).drop (d.requests w.process).length
  have hrow := h.recorded _ r hr
  -- everything before the old cursor is stored
  rw [htodo] at hahead
  have hold : (appendsTo output w.process w.cursor).length ≤ (d.requests w.process).length :=
    drop_eq_nil_iff.mp hahead.symm
  have hrowle : (appendsTo output w.process r.cursor).length ≤
      (appendsTo output w.process w.cursor).length := by
    rw [appendsTo, appendsTo, appends_take output _ hc, length_append]
    exact Nat.le_add_right _ _
  obtain ⟨k, hk⟩ := Nat.exists_eq_add_of_le hold
  obtain ⟨l, hl⟩ := appends_take_prefix output w.process upTo
  obtain ⟨l', hl'⟩ := h.inOrder w.process
  have hA : appends (output w.process) = appendsTo output w.process w.cursor ++
      (appends (stretch output w.process w.cursor upTo) ++ l) := by
    rw [← hl, appends_take output _ hle, append_assoc]
  have hnodup := nodup_appends hids
  rw [show (calls (output w.process)).filterMap append? = appends (output w.process)
    from rfl] at hnodup
  rw [appendsTo, appends_take output _ hle, hk, ← drop_drop, drop_left]
  conv => lhs; rw [← take_append_drop k (appends (stretch output w.process w.cursor upTo))]
  rw [filter_append]
  -- the first `k` are those stored past the cursor
  have hstored : (d.requests w.process).drop (appendsTo output w.process w.cursor).length =
      (appends (stretch output w.process w.cursor upTo) ++ l).take k := by
    have htake : d.requests w.process = (appends (output w.process)).take
        (d.requests w.process).length := by
      rw [← hl', take_left]
    rw [htake, hk, drop_take, hA, drop_left]
    congr 1
    omega
  have hfirst : ((appends (stretch output w.process w.cursor upTo)).take k).filter
      (·.callId ∉ r.applied) = [] := by
    rw [filter_eq_nil_iff]
    intro q hq
    have hmem : q ∈ (d.requests w.process).drop (appendsTo output w.process w.cursor).length := by
      rw [hstored, take_append]
      exact mem_append_left _ hq
    have := hrow.marked q (mem_of_mem_drop (i := (appendsTo output w.process w.cursor).length -
      (appendsTo output r.process r.cursor).length) (by
        rw [hp, drop_drop, Nat.add_sub_cancel' hrowle]
        exact hmem))
    simpa using this
  rw [hfirst, nil_append, filter_eq_self]
  intro q hq
  -- the others are not stored, so not marked
  have hnot : q.callId ∉ r.applied := by
    intro hin
    have hc := hrow.applied _ hin
    rw [hp] at hc
    rw [hA] at hnodup
    have hsplit : appendsTo output w.process w.cursor ++
        (appends (stretch output w.process w.cursor upTo) ++ l) =
        d.requests w.process ++ l' := by rw [← hA, hl']
    rw [hsplit, map_append, nodup_append] at hnodup
    refine hnodup.2.2 _ hc _ (mem_map_of_mem ?_) rfl
    have hdrop : l' = (appends (stretch output w.process w.cursor upTo) ++ l).drop k := by
      rw [← @drop_left _ (d.requests w.process) l', ← hsplit, hk, ← drop_drop, drop_left]
    rw [hdrop, drop_append]
    exact mem_append_left _ hq
  simpa using hnot

/-! ## Runs -/

/-- A step that stores nothing keeps everything but where its holder is. -/
theorem Quiet.keepsStored (hq : Quiet d d') (h : Stored output d) (hatt : Attends output m d')
    (hans : Answers m d) : KeepsStored output d d' m :=
  ⟨hq.keeps h, hatt, answers_congr hans hq.stored, hq.stored ▸ prefix_rfl⟩

theorem answers_answered (hold : ∀ c ∈ w.results, c ∈ (d.requests w.process).map Append.callId)
    (hmono : ∀ c ∈ (d.requests w.process).map Append.callId,
      c ∈ (d'.requests w.process).map Append.callId)
    (hc : c ∈ (d'.requests w.process).map Append.callId) :
    ∀ c' ∈ (w.answered c).results, c' ∈ (d'.requests w.process).map Append.callId := by
  intro c' hc'
  rcases mem_append.mp hc' with hc' | hc'
  · exact hmono c' (hold c' hc')
  · rw [mem_singleton.mp hc']
    exact hc

/-- The answers of a holder in step with the row of the call it answers. -/
theorem stored_of_marked (h : Stored output d) (hr : d.runner w.attempt = some r)
    (hp : r.process = w.process) (hq : q.callId ∈ r.applied) :
    q.callId ∈ (d.requests w.process).map Append.callId := by
  rw [← hp]
  exact (h.recorded _ r hr).applied _ hq

theorem answerAppend_turn (w : Attached) (q : Append) (d : Data) :
    (answerAppend w q d).turn = d.turn := by
  unfold answerAppend
  split <;> rfl

theorem answerAppend_length (w : Attached) (q : Append) (d : Data) :
    (answerAppend w q d).attempts.length = d.attempts.length := by
  unfold answerAppend
  split
  · rfl
  · exact length_modify ..

/-- An append answered in a wind-down, stored before or now. -/
theorem keepsStored_answer
    (hids : ((calls (output w.process)).map Prod.fst).Nodup) (hread : Read d) (h : Stored output d)
    (hatt : Attends output (.drain turn i w) d) (hans : Answers (.drain turn i w) d)
    (hnext : w.next? = some q) :
    KeepsStored output d (answerAppend w q d) (.drain turn i (w.answered q.callId)) := by
  obtain ⟨hturn, hactive, hne, hlast, hahead⟩ := hatt
  obtain ⟨r, hr, hp, _, _⟩ := id hahead
  by_cases hq : q.callId ∈ r.applied
  · rw [answer_marked hr hq]
    refine ⟨h, ⟨hturn, hactive, hne, hlast, hahead.pastMarked hnext hr hq⟩, ?_, prefix_rfl⟩
    exact answers_answered hans (fun _ hc => hc) (stored_of_marked h hr hp hq)
  · obtain ⟨hstored, hahead', heq⟩ :=
      stored_answer hids hread h hahead (by rw [hturn]; exact hne) hnext hr hq
    have hreq : (answerAppend w q d).requests w.process = d.requests w.process ++ [q] := by
      unfold Data.requests
      rw [heq, filter_append, map_append]
      simp
    refine ⟨hstored, ⟨(answerAppend_turn w q d).trans hturn, hactive, hne, ?_, hahead'⟩, ?_, ?_⟩
    · rw [answerAppend_length]
      exact hlast
    · refine answers_answered hans ?_ ?_
      · intro c hc
        rw [hreq, map_append]
        exact mem_append_left _ hc
      · rw [hreq, map_append]
        exact mem_append_right _ (mem_singleton_self _)
    · rw [heq]
      exact prefix_append _ _

theorem stored_commit {a : Action} (hids : ∀ p, ((calls (output p)).map Prod.fst).Nodup)
    (hread : Read d) (h : Stored output d) (hm : InStep m d) (hatt : Attends output m d)
    (hans : Answers m d) (hc : Committed output a m d d' m') : KeepsStored output d d' m' := by
  cases hc with
  | begin hlast =>
    refine Quiet.keepsStored ⟨rfl, rfl, rfl, rfl, ?_, ?_⟩ h ⟨hatt.1, hatt.2.1, ?_⟩ trivial
    · intro j r' hr'
      rw [runner_append] at hr'
      exact ⟨r', hr', .refl r'⟩
    · intro hw
      exact absurd (hatt.1.symm.trans hw) (by decide)
    · simp
  | bindThread =>
    refine Quiet.keepsStored ?_ h ⟨hatt.1, hatt.2.1, ?_⟩ trivial
    · exact quiet_setAttempt d.turn (fun _ => .inl rfl) id
    · rw [hatt.2.2]
      simp [Data.setAttempt]
  | note => exact ⟨h, hatt, hans, prefix_rfl⟩
  | launch hattempt => exact stored_launch h hatt hattempt
  | prepareAgain =>
    refine (quiet_setAttempt _ (fun _ => .inr rfl) (fun hw => by cases hw)).keepsStored h ?_
      trivial
    exact ⟨rfl, rfl, by rw [hatt.2.2]; simp [Data.setAttempt]⟩
  | applyFrames happly => exact stored_applyFrames (hids _) hread h hm hatt hans happly
  | @saveRunner _ w =>
    obtain ⟨hturn, hlast, hahead, hknown⟩ := hatt
    obtain ⟨r, hr, hp, hrest⟩ := id hahead
    have hpos := (position_of_runner hr).symm.trans hm
    rw [some.injEq, Prod.mk.injEq] at hpos
    have halike := alike_runnerWrite hpos.1 hpos.2
    have hrun := runner_setRunner_some hr
      (f := fun r => some (runnerWrite r w.process w.cursor [] []))
    refine Quiet.keepsStored ⟨rfl, rfl, rfl, rfl, ?_, ?_⟩ h ?_ hans
    · intro j r' hr'
      rw [hrun] at hr'
      split at hr'
      · rename_i hj
        cases hr'
        exact ⟨r, by rw [hj]; exact hr, halike⟩
      · exact ⟨r', hr', .refl r'⟩
    · exact fun hw => ⟨hw, length_setRunner ..⟩
    · refine ⟨hturn, by rw [length_setRunner]; exact hlast, ?_, hknown⟩
      exact hahead.alike hr ((hrun w.attempt).trans (if_pos rfl)) halike rfl
  | @restart _ w status hstatus htodo =>
    obtain ⟨_, hlast, hahead, _⟩ := hatt
    have hq : Quiet d _ := quiet_setAttempt (d := d) .preparing (i := w.attempt)
      (f := fun a => { a with status }) (fun _ => .inl rfl) (fun hw => by cases hw)
    refine hq.keepsStored h ⟨rfl, rfl, by decide, ?_, ?_⟩ hans
    · rw [hlast]
      simp [Data.setAttempt]
    · exact hahead.same (runner_setAttempt_same (d := { d with turn := .preparing })
        (i := w.attempt) (f := fun a => { a with status }) (fun _ => rfl) _) rfl
  | finalizing htodo =>
    obtain ⟨_, hlast, hahead, _⟩ := hatt
    refine (quiet_turn (fun hw => by cases hw)).keepsStored h ?_ hans
    exact ⟨rfl, rfl, by decide, hlast, hahead.same rfl rfl⟩
  | finalizingReady =>
    exact (quiet_turn (fun hw => by cases hw)).keepsStored h ⟨rfl, rfl, hatt.2.2⟩ trivial
  | @answerPump _ w q hnext =>
    obtain ⟨r, hr, hp, _, _⟩ := hatt.2.2.1
    have hq := marked_of_working h hm hatt hnext hr
    rw [answer_marked hr hq]
    obtain ⟨hturn, hlast, hahead, hknown⟩ := hatt
    refine ⟨h, ⟨hturn, hlast, hahead.pastMarked hnext hr hq, hknown⟩, ?_, prefix_rfl⟩
    exact answers_answered hans (fun _ hc => hc) (stored_of_marked h hr hp hq)
  | answerDrain hnext => exact keepsStored_answer (hids _) hread h hatt hans hnext
  | markEndedDrain =>
    refine (quiet_markEnded d _).keepsStored h ?_ trivial
    exact ⟨hatt.1, hatt.2.1, by rw [length_setRunner]; exact hatt.2.2.2.1⟩
  | markEnded =>
    refine (quiet_markEnded d _).keepsStored h ?_ trivial
    exact ⟨hatt.1, hatt.2.1, by rw [length_setRunner]; exact hatt.2.2⟩
  | settle hturn =>
    refine (quiet_setAttempt _ (fun a => .inl (finish_runner a _)) ?_).keepsStored h trivial
      trivial
    intro hw
    rw [hw] at hturn
    exact absurd rfl hturn

theorem quiet_sent (h : Stored output d)
    (hans : ∀ c ∈ w.results, c ∈ (d.requests w.process).map Append.callId) :
    Stored output { d with sent := d.sent ++ w.results.map (w.process, ·) } := by
  refine ⟨h.inOrder, h.unread, fun i r hr => (h.recorded i r hr).alike (.refl r) rfl, h.working,
    nativeOk_congr h.native rfl rfl, ?_⟩
  intro x hx
  rcases mem_append.mp hx with hx | hx
  · exact h.sent x hx
  · obtain ⟨c, hc, rfl⟩ := mem_map.mp hx
    exact hans c hc

/-- Neither starting a process nor sending answers changes what a holder attends to. -/
theorem attends_congr (h : Attends output m d) (hturn : d'.turn = d.turn)
    (hatts : d'.attempts = d.attempts) (hstored : d'.stored = d.stored) : Attends output m d' := by
  have hahead : ∀ w, Ahead output d w → Ahead output d' w := by
    intro w hw
    refine hw.same ?_ hstored
    unfold Data.runner
    rw [hatts]
  cases m with
  | start | finished => trivial
  | ready turn i => exact ⟨by rw [hturn]; exact h.1, h.2.1, by rw [hatts]; exact h.2.2⟩
  | launched i p =>
    exact ⟨by rw [hturn]; exact h.1, by rw [hatts]; exact h.2.1,
      by rw [requests_congr hstored]; exact h.2.2⟩
  | pump w =>
    exact ⟨by rw [hturn]; exact h.1, by rw [hatts]; exact h.2.1, hahead w h.2.2.1, h.2.2.2⟩
  | drain turn i w =>
    exact ⟨by rw [hturn]; exact h.1, h.2.1, h.2.2.1, by rw [hatts]; exact h.2.2.2.1,
      hahead w h.2.2.2.2⟩

/-- A holder that goes past a call that is no append. -/
theorem Ahead.pass (h : Ahead output d w) (hnext : w.next? = none) : Ahead output d w.skip := by
  obtain ⟨r, hr, hp, hc, htodo⟩ := h
  refine ⟨r, hr, hp, hc, ?_⟩
  rw [filterMap_of_no_next hnext] at htodo
  exact htodo

/-- What an act keeps: the data, all memories. -/
structure KeepsAll (output : Process → List Frame) (m : Local) (d d' : Data) (m' : Local) :
    Prop where
  stored : Stored output d'
  answers : Answers m' d'
  attends : Attends output m d → Attends output m' d'
  others : ∀ m₂, Attends output m₂ d → Attends output m₂ d'
  same : d'.stored = d.stored

theorem stored_act {b : Act} (hids : ∀ p, ((calls (output p)).map Prod.fst).Nodup)
    (h : Stored output d) (hans : Answers m d) (ha : Acted output b m d d' m') :
    KeepsAll output m d d' m' := by
  cases ha with
  | loadTurn =>
    refine ⟨h, ?_, fun _ => ?_, fun _ => id, rfl⟩
    · split <;> trivial
    · split
      · rename_i hactive
        exact ⟨rfl, hactive, rfl⟩
      · trivial
  | startProcess =>
    refine ⟨⟨h.inOrder, ?_, fun i r hr => (h.recorded i r hr).alike (.refl r) rfl, h.working,
      nativeOk_congr h.native rfl rfl, h.sent⟩, trivial, ?_,
      fun _ hm => attends_congr hm rfl rfl rfl, rfl⟩
    · exact fun p hp => h.unread p (Nat.le_of_succ_le hp)
    · exact fun hm => ⟨hm.1, hm.2.2, h.unread _ (Nat.le_refl _)⟩
  | reattach hattach =>
    obtain ⟨r, hr, hj, hp, hc, hcalls, htodo, hres⟩ := attach_some hattach
    refine ⟨h, ?_, ?_, fun _ => id, rfl⟩
    · intro c hc
      rw [hres] at hc
      cases hc
    · refine fun hm => ⟨hm.1, by rw [hj]; exact hm.2.2, ahead_attach h hattach, ?_⟩
      rw [hcalls, hp, hc]
      exact (h.recorded _ r hr).known
  | reattachEnded hattach | reattachSuperseded hattach =>
    obtain ⟨_, _, _, _, _, _, _, hres⟩ := attach_some hattach
    refine ⟨h, ?_, ?_, fun _ => id, rfl⟩
    · intro c hc
      rw [hres] at hc
      cases hc
    · exact fun hm => ⟨hm.1, hm.2.1, by decide, hm.2.2, ahead_attach h hattach⟩
  | readOn htodo hfrom =>
    refine ⟨h, fun c hc => hans c (mem_of_mem_filter hc), ?_, fun _ => id, rfl⟩
    exact fun hm => ⟨hm.1, hm.2.1, hm.2.2.1, hm.2.2.2.1,
      ahead_readOn (hids _) h hm.2.2.2.2 htodo hfrom⟩
  | passPump hnext =>
    exact ⟨h, hans, fun hm => ⟨hm.1, hm.2.1, hm.2.2.1.pass hnext, hm.2.2.2⟩, fun _ => id, rfl⟩
  | passDrain hnext =>
    exact ⟨h, hans, fun hm => ⟨hm.1, hm.2.1, hm.2.2.1, hm.2.2.2.1, hm.2.2.2.2.pass hnext⟩,
      fun _ => id, rfl⟩
  | sendPump | sendDrain =>
    exact ⟨quiet_sent h hans, hans, fun hm => attends_congr hm rfl rfl rfl,
      fun _ hm => attends_congr hm rfl rfl rfl, rfl⟩
  | leave => exact ⟨h, trivial, fun hm => ⟨hm.1, hm.2.1, hm.2.2.2.1⟩, fun _ => id, rfl⟩

/-- A failed transaction of a holder that winds nothing down. -/
theorem attends_undo {a : Action} (hkeeps : KeepsWindDown a m) (h : Stored output d)
    (hm : InStep m d) (hatt : Attends output m d) (hans : Answers m d) :
    Attends output (undo a m) d ∧ Answers (undo a m) d := by
  unfold undo
  split
  · rename_i w
    refine ⟨?_, hans⟩
    obtain ⟨r, hr, _, _, _⟩ := hatt.2.2.1
    cases hnext : w.next? with
    | none => exact ⟨hatt.1, hatt.2.1, hatt.2.2.1.pass hnext, hatt.2.2.2⟩
    | some q =>
      -- while the turn works the append is marked already
      have hq := marked_of_working h hm hatt hnext hr
      exact ⟨hatt.1, hatt.2.1, hatt.2.2.1.pastMarked hnext hr hq, hatt.2.2.2⟩
  · exact absurd hkeeps id
  · exact ⟨hatt, hans⟩

/-- What the turn's transactions keep of the native state. -/
theorem stored_rules (hids : ∀ p, ((calls (output p)).map Prod.fst).Nodup) :
    Rules (work output) (fun d => Read d ∧ Stored output d) Answers
      (fun m d => InStep m d ∧ Attends output m d) KeepsWindDown where
  fresh _ := ⟨trivial, trivial, trivial⟩
  claimed h _ := by
    refine ⟨⟨(still_turn _ _).read h.1, (quiet_turn (fun hw => by cases hw)).keeps h.2⟩, ?_⟩
    exact fun m hm => answers_congr hm rfl
  commit h hans hm hc := by
    obtain ⟨hread, hstep⟩ := read_commit h.1 hm.1 (committed_of_commit output hc)
    obtain ⟨hstored, hatt, hans', hgrows⟩ :=
      stored_commit hids h.1 h.2 hm.1 hm.2 hans (committed_of_commit output hc)
    exact ⟨⟨hread, hstored⟩, hans', ⟨hstep, hatt⟩, fun m₂ hm₂ => answers_mono hm₂ hgrows⟩
  undo hkeeps h hans hm := by
    obtain ⟨hatt, hans'⟩ := attends_undo hkeeps h.2 hm.1 hm.2 hans
    exact ⟨hans', inStep_undo hm.1, hatt⟩
  act h hans ha := by
    obtain ⟨hread, hown, hothers⟩ := read_act h.1 (acted_of_act output ha)
    obtain ⟨hstored, hans', hatt, hattOthers, hsame⟩ :=
      stored_act hids h.2 hans (acted_of_act output ha)
    refine ⟨⟨hread, hstored⟩, hans', fun hm => ⟨hown hm.1, hatt hm.2⟩, fun m₂ => ⟨?_, ?_⟩⟩
    · exact fun hm₂ => answers_congr hm₂ hsame
    · exact fun hm₂ => ⟨hothers m₂ hm₂.1, hattOthers m₂ hm₂.2⟩
  outside := by
    intro c d d' h hout
    obtain ⟨hsettled, hd⟩ := ite_none_right_eq_some.mp hout
    cases hd
    refine ⟨⟨(still_turn d _).read h.1, (quiet_turn (fun hw => by cases hw)).keeps h.2⟩, ?_⟩
    refine fun m => ⟨fun hm => answers_congr hm rfl, fun hm => ?_⟩
    refine ⟨(still_turn d .queued).inStep hm.1, ?_⟩
    -- a holder attends to no settled turn
    have hatt := hm.2
    cases m with
    | start | finished => trivial
    | ready turn i | drain turn i w =>
      have hactive := hatt.2.1
      rw [← hatt.1, hsettled] at hactive
      cases hactive
    | launched i p | pump w => exact absurd (hsettled.symm.trans hatt.1) (by decide)

end

theorem stored_queued (output : Process → List Frame) : Stored output .queued := by
  refine ⟨fun _ => nil_prefix, fun _ _ => rfl, ?_, ?_, ⟨ordered_nil, fun _ => rfl⟩, ?_⟩
  · intro i r hr
    cases hr
  · intro hw
    cases hw
  · intro x hx
    cases hx

/-- What a runner's append requests are promised. -/
structure StoredOnce (output : Process → List Frame) (s : State Data Local Action) : Prop where
  /-- The requests stored are the first ones the runner made, in its order. -/
  inOrder : ∀ p, s.data.requests p <+: appends (output p)
  once : ∀ p, ((s.data.requests p).map Append.callId).Nodup
  /-- None before a recorded cursor is left out. -/
  covered : ∀ i r, s.data.runner i = some r →
    appendsTo output r.process r.cursor <+: s.data.requests r.process
  /-- The native state loads as the entries of the stored requests, each `uuid` once. -/
  loads : ∀ place, s.data.native.load place = s.data.entriesAt place
  /-- A request answered as stored was stored by a transaction that committed. -/
  answered : ∀ x ∈ s.data.sent, x.2 ∈ (s.data.requests x.1).map Append.callId

/--
**Where no claim commits while a checked transaction is open, and no append of a wind-down
fails, native state is stored once and in order.** A runner names each of its calls anew.
-/
theorem appends_stored_once (output : Process → List Frame)
    (hids : ∀ p, ((calls (output p)).map Prod.fst).Nodup) (s : State Data Local Action)
    (hr : TurnRun output (fun s e => Exclusive s e ∧ Undone KeepsWindDown s e) s) :
    StoredOnce output s := by
  have hkept := kept_reachable (stored_rules hids) ⟨read_queued, stored_queued output⟩ hr
  obtain ⟨_, hstored⟩ := hkept.good
  refine ⟨hstored.inOrder, fun p => ?_, fun i r hi => (hstored.recorded i r hi).covered,
    fun place => ?_, hstored.sent⟩
  · obtain ⟨l, hl⟩ := hstored.inOrder p
    have hnodup := nodup_appends (hids p)
    rw [show (calls (output p)).filterMap append? = appends (output p) from rfl, ← hl,
      map_append] at hnodup
    exact (nodup_append.mp hnodup).1
  · rw [load_eq_entries hstored.native.ordered, hstored.native.entries]

/-- A runner that makes two requests. -/
def twoAppends : Process → List Frame := fun _ =>
  [.call 1 (.append 0 [⟨none, "a"⟩]), .call 2 (.append 0 [⟨none, "b"⟩])]

def noRollback : Event Action Act Outside → Bool
  | .rollback _ => false
  | _ => true

/-- The first request is stored with its frame, the second by a holder that takes over a wind-down. -/
theorem appends_stored_once_taken_over :
    ∃ s, TurnRun twoAppends (fun s e => Exclusive s e ∧ Undone KeepsWindDown s e) s ∧
      StoredOnce twoAppends s ∧ (s.data.requests 0).map Append.callId = [1, 2] ∧
      s.data.sent = [(0, 1), (0, 1), (0, 2)] := by
  have hrun : (execOk (step (work twoAppends) leaseSeconds)
      (fun s e => Exclusive s e ∧ noRollback e) { data := .queued }
      (launched ++
        [.check 0 (.applyFrames 1), .lock 0, .commit 0, .check 0 .finalizing, .lock 0, .commit 0,
         .act 0 (.readOn 2), .check 0 .answer, .lock 0, .commit 0, .crash 0, .tick 60,
         .claimBegin 1, .claimLock 1, .claimTake 1, .act 1 .loadTurn, .act 1 .reattach,
         .check 1 .answer, .lock 1, .commit 1, .act 1 .sendResults, .act 1 (.readOn 2),
         .check 1 .answer, .lock 1, .commit 1, .act 1 .sendResults])).map
      (fun s => ((s.data.requests 0).map Append.callId, s.data.sent)) =
        some ([1, 2], [(0, 1), (0, 1), (0, 2)]) := by
    decide +kernel
  obtain ⟨s, hs, heq⟩ := map_eq_some_iff.mp hrun
  obtain ⟨hreqs, hsent⟩ := Prod.mk.inj heq
  have hr : TurnRun twoAppends (fun s e => Exclusive s e ∧ Undone KeepsWindDown s e) s := by
    refine (reach_of_execOk hs).mono ?_
    intro s e he
    refine ⟨he.1, ?_⟩
    cases e with
    | rollback t => exact absurd he.2 Bool.false_ne_true
    | _ => trivial
  have hids : ((calls (twoAppends 0)).map Prod.fst).Nodup := by decide
  exact ⟨s, hr, appends_stored_once _ (fun _ => hids) s hr, hreqs, hsent⟩

/--
A claim between a transaction's check and its commit: both holders apply the frame that
carries the request, and its entries are stored twice.
-/
theorem stale_holder_stores_again :
    ∃ s, TurnRun twoAppends anyEvent s ∧ (s.data.requests 0).map Append.callId = [1, 1] ∧
      ¬ StoredOnce twoAppends s := by
  have hrun : (exec (step (work twoAppends) leaseSeconds) { data := .queued }
      (launched ++ [.tick 59, .check 0 (.applyFrames 1), .tick 1,
         .claimBegin 1, .claimLock 1, .claimTake 1, .act 1 .loadTurn, .act 1 .reattach,
         .lock 0, .commit 0,
         .check 1 (.applyFrames 1), .lock 1, .commit 1])).map
      (fun s => (s.data.requests 0).map Append.callId) = some [1, 1] := by
    decide +kernel
  obtain ⟨s, hs, hreqs⟩ := map_eq_some_iff.mp hrun
  refine ⟨s, reach_of_exec hs, hreqs, fun h => ?_⟩
  have honce := h.once 0
  rw [hreqs] at honce
  exact absurd honce (by decide)

end Catamorphic.Sessions.TurnEngine
