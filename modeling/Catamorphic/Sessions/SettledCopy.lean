import Catamorphic.Lib.Json
import Catamorphic.Sessions.Protocol
import Mathlib.Logic.Function.Basic

/-!
# Copying a session's settled history

A fork starts from the settled turns of another session, through one item. What is copied gets
fresh ids, and every string that is an id of what is copied becomes the fresh one. What is left
behind has none, so an id that names it stays what it was.
-/

namespace Catamorphic.Sessions.Copy

open Function List
open Protocol (TurnStatus RuntimeRequestStatus)

/-- An id, as the string it is. -/
abbrev Id := Text

/-! ## The history -/

structure NativeRef where
  id : Text
  /-- `strength !== "none"` -/
  strong : Bool
  deriving DecidableEq

structure Turn where
  id : Id
  sessionId : Id
  ordinal : Nat
  status : TurnStatus
  inputItemId : Option Id
  activeAttemptId : Option Id
  providerThreadId : Option Id
  continuationOf : Option Id
  rest : JsonValue

structure Attempt where
  id : Id
  sessionId : Id
  turnId : Id
  ordinal : Nat
  providerThreadId : Option Id
  nativeTurnRef : Option NativeRef
  rest : JsonValue

/-- An item; of the fields of its kind, those that name requests and provider threads: what a
request item shows, what a message answers, whose threads a handoff tells of. -/
structure Item where
  id : Id
  sessionId : Id
  turnId : Option Id
  attemptId : Option Id
  parentItemId : Option Id
  position : Nat
  requestId : Option Id
  threadIds : List Id
  rest : JsonValue

structure RuntimeRequest where
  id : Id
  sessionId : Id
  turnId : Option Id
  attemptId : Option Id
  itemId : Option Id
  status : RuntimeRequestStatus
  rest : JsonValue

structure ProviderThread where
  id : Id
  sessionId : Id
  harness : Text
  nativeRef : Option NativeRef
  lastTurnOrdinal : Option Nat
  rest : JsonValue

structure SessionSnapshot where
  sessionId : Id
  turns : List Turn
  attempts : List Attempt
  items : List Item
  requests : List RuntimeRequest
  providerThreads : List ProviderThread
  olderBefore : Option Nat
  /-- The sequence, and the session's other fields. -/
  rest : JsonValue

structure ForkPoint where
  threadId : Id
  harness : Text
  source : NativeRef
  throughTurnRef : Option NativeRef

/-! ## Rebasing -/

section

variable (f : Id → Id)

mutual

/-- `rebaseIds` of a value: its strings, and not its keys. -/
def rebaseValue : JsonValue → JsonValue
  | .null => .null
  | .bool value => .bool value
  | .number value => .number value
  | .string text => .string (f text)
  | .array entries => .array (rebaseEntries entries)
  | .object fields => .object (rebaseFields fields)

def rebaseEntries : List JsonValue → List JsonValue
  | [] => []
  | entry :: entries => rebaseValue entry :: rebaseEntries entries

def rebaseFields : List (Text × JsonValue) → List (Text × JsonValue)
  | [] => []
  | (key, value) :: fields => (key, rebaseValue value) :: rebaseFields fields

end

def NativeRef.rebase (ref : NativeRef) : NativeRef := { ref with id := f ref.id }

def Turn.rebase (turn : Turn) : Turn where
  id := f turn.id
  sessionId := f turn.sessionId
  ordinal := turn.ordinal
  status := turn.status
  inputItemId := turn.inputItemId.map f
  activeAttemptId := turn.activeAttemptId.map f
  providerThreadId := turn.providerThreadId.map f
  continuationOf := turn.continuationOf.map f
  rest := rebaseValue f turn.rest

def Attempt.rebase (attempt : Attempt) : Attempt where
  id := f attempt.id
  sessionId := f attempt.sessionId
  turnId := f attempt.turnId
  ordinal := attempt.ordinal
  providerThreadId := attempt.providerThreadId.map f
  nativeTurnRef := attempt.nativeTurnRef.map (NativeRef.rebase f)
  rest := rebaseValue f attempt.rest

def Item.rebase (item : Item) : Item where
  id := f item.id
  sessionId := f item.sessionId
  turnId := item.turnId.map f
  attemptId := item.attemptId.map f
  parentItemId := item.parentItemId.map f
  position := item.position
  requestId := item.requestId.map f
  threadIds := item.threadIds.map f
  rest := rebaseValue f item.rest

def RuntimeRequest.rebase (request : RuntimeRequest) : RuntimeRequest where
  id := f request.id
  sessionId := f request.sessionId
  turnId := request.turnId.map f
  attemptId := request.attemptId.map f
  itemId := request.itemId.map f
  status := request.status
  rest := rebaseValue f request.rest

end

/-- `ids.set(id, randomUUID())` for one id after another; `uuid n` is the `n`-th draw. -/
def setIds (uuid : Nat → Id) : Nat → List Id → (Id → Option Id) → Id → Option Id
  | _, [], ids => ids
  | n, id :: rest, ids => setIds uuid (n + 1) rest (update ids id (some (uuid n)))

/-! ## The copy -/

/-- A field that is there and not empty. -/
def truthy (id : Option Id) : Option Id := id.filter fun id => id ≠ []

section

variable (snapshot : SessionSnapshot) (through : Option Item)

/-- The turn of the item that is copied through. -/
def throughTurn : Option Turn :=
  (through.bind fun item => truthy item.turnId).bind fun turnId =>
    snapshot.turns.find? fun turn => turn.id = turnId

def keptTurns : List Turn :=
  snapshot.turns.filter fun turn =>
    turn.status.settled && (throughTurn snapshot through).all fun last =>
      turn.ordinal ≤ last.ordinal

/-- `kept.has(id)` -/
def kept (id : Id) : Bool := (keptTurns snapshot through).any fun turn => turn.id = id

/-- The last position that is copied; none where there is no limit. -/
def limit : Option Nat :=
  through.map fun item =>
    ((snapshot.items.filter fun other => (throughTurn snapshot through).any fun last =>
      other.turnId = some last.id).map Item.position).foldl max item.position

def keptItems : List Item :=
  snapshot.items.filter fun item =>
    ((limit snapshot through).all fun last => item.position ≤ last) &&
      (truthy item.turnId).all fun turnId => kept snapshot through turnId

def keptAttempts : List Attempt :=
  snapshot.attempts.filter fun attempt => kept snapshot through attempt.turnId

def keptRequests : List RuntimeRequest :=
  snapshot.requests.filter fun request =>
    request.status ≠ .pending &&
      (truthy request.turnId).any fun turnId => kept snapshot through turnId

/-- The entities that get a fresh id, in the order they do. -/
def copiedIds : List Id :=
  (keptTurns snapshot through).map Turn.id ++ (keptAttempts snapshot through).map Attempt.id ++
    (keptItems snapshot through).map Item.id ++
    (keptRequests snapshot through).map RuntimeRequest.id

/-- `ids.get(field) ?? field` -/
def rebaseId (uuid : Nat → Id) (sessionId : Id) (field : Id) : Id :=
  (setIds uuid 0 (copiedIds snapshot through)
    (update (fun _ => none) snapshot.sessionId (some sessionId)) field).getD field

def forkPoint : Option ForkPoint :=
  let last := (keptTurns snapshot through).getLast?
  let lastAttempt := last.bind fun last =>
    (((keptAttempts snapshot through).filter fun attempt => attempt.turnId = last.id).mergeSort
      fun a b => b.ordinal ≤ a.ordinal).head?
  let sourceThread := (last.bind fun last => truthy last.providerThreadId).bind fun threadId =>
    snapshot.providerThreads.find? fun thread => thread.id = threadId
  sourceThread.bind fun thread =>
    match thread.nativeRef, thread.lastTurnOrdinal with
    | some source, some ordinal =>
      if source.strong && (last.elim 0 Turn.ordinal ≤ ordinal &&
          (last.map Turn.ordinal = some ordinal ||
            (lastAttempt.bind Attempt.nativeTurnRef).isSome)) then
        some ⟨thread.id, thread.harness, source, lastAttempt.bind Attempt.nativeTurnRef⟩
      else none
    | _, _ => none

/-- The copy, given the item to copy through. -/
def copied (uuid : Nat → Id) (sessionId : Id) : SessionSnapshot :=
  let rebase := rebaseId snapshot through uuid sessionId
  { snapshot with
    sessionId := sessionId
    turns := ((keptTurns snapshot through).map (Turn.rebase rebase)).map fun turn =>
      { turn with providerThreadId := none }
    attempts := ((keptAttempts snapshot through).map (Attempt.rebase rebase)).map fun attempt =>
      { attempt with providerThreadId := none }
    items := (keptItems snapshot through).map (Item.rebase rebase)
    requests := (keptRequests snapshot through).map (RuntimeRequest.rebase rebase)
    providerThreads := []
    olderBefore := none }

end

/-- The item that is copied through. -/
def throughItem (snapshot : SessionSnapshot) (throughItemId : Option Id) : Option Item :=
  (truthy throughItemId).bind fun itemId => snapshot.items.find? fun item => item.id = itemId

def copySettledHistory (uuid : Nat → Id) (snapshot : SessionSnapshot) (sessionId : Id)
    (throughItemId : Option Id) : Option (SessionSnapshot × Option ForkPoint) :=
  let through := throughItem snapshot throughItemId
  if (truthy throughItemId).isSome && through.isNone then none
  else some (copied snapshot through uuid sessionId, forkPoint snapshot through)

/-! ## What names what -/

inductive Kind
  | turn
  | attempt
  | item
  | request
  | thread
  deriving DecidableEq

def naming (kind : Kind) (id : Option Id) : List (Kind × Id) := id.toList.map fun id => (kind, id)

def Turn.refs (turn : Turn) : List (Kind × Id) :=
  naming .item turn.inputItemId ++ naming .attempt turn.activeAttemptId ++
    naming .turn turn.continuationOf ++ naming .thread turn.providerThreadId

def Attempt.refs (attempt : Attempt) : List (Kind × Id) :=
  naming .turn (some attempt.turnId) ++ naming .thread attempt.providerThreadId

def Item.refs (item : Item) : List (Kind × Id) :=
  naming .turn item.turnId ++ naming .attempt item.attemptId ++ naming .item item.parentItemId ++
    naming .request item.requestId ++ item.threadIds.map fun id => (.thread, id)

def RuntimeRequest.refs (request : RuntimeRequest) : List (Kind × Id) :=
  naming .turn request.turnId ++ naming .attempt request.attemptId ++ naming .item request.itemId

namespace SessionSnapshot

variable (snapshot : SessionSnapshot)

/-- What the entities of a history name, each with its kind. -/
def refs : List (Kind × Id) :=
  snapshot.turns.flatMap Turn.refs ++ snapshot.attempts.flatMap Attempt.refs ++
    snapshot.items.flatMap Item.refs ++ snapshot.requests.flatMap RuntimeRequest.refs

def ids : Kind → List Id
  | .turn => snapshot.turns.map Turn.id
  | .attempt => snapshot.attempts.map Attempt.id
  | .item => snapshot.items.map Item.id
  | .request => snapshot.requests.map RuntimeRequest.id
  | .thread => snapshot.providerThreads.map ProviderThread.id

def sessionIds : List Id :=
  snapshot.turns.map Turn.sessionId ++ snapshot.attempts.map Attempt.sessionId ++
    snapshot.items.map Item.sessionId ++ snapshot.requests.map RuntimeRequest.sessionId

end SessionSnapshot

/-- What is copied, before it is rebased. -/
def keptOf (snapshot : SessionSnapshot) (through : Option Item) : SessionSnapshot :=
  { snapshot with
    turns := (keptTurns snapshot through).map fun turn => { turn with providerThreadId := none }
    attempts := (keptAttempts snapshot through).map fun attempt =>
      { attempt with providerThreadId := none }
    items := keptItems snapshot through
    requests := keptRequests snapshot through
    providerThreads := []
    olderBefore := none }

/-- A copy that stands on its own: it names only itself, and has its turns' items and no
others'. -/
structure Faithful (source copy : SessionSnapshot) (f : Id → Id) : Prop where
  closed : ∀ ref ∈ copy.refs, ref.1 ≠ .thread → ref.2 ∈ copy.ids ref.1
  ours : ∀ ref ∈ copy.refs, ref.2 ∉ source.ids ref.1
  sessions : ∀ id ∈ copy.sessionIds, id = copy.sessionId
  whole : ∀ turn ∈ source.turns, f turn.id ∈ copy.ids .turn → ∀ item ∈ source.items,
    item.turnId = some turn.id → item.rebase f ∈ copy.items
  dropped : ∀ turn ∈ source.turns, f turn.id ∉ copy.ids .turn → ∀ item ∈ source.items,
    item.turnId = some turn.id → item.rebase f ∉ copy.items

/-- A history that can be copied through an item. -/
structure Closable (snapshot : SessionSnapshot) (through : Option Item) : Prop where
  /-- The turns that are named have settled, and not after the last one. -/
  turns : ∀ id, (.turn, id) ∈ (keptOf snapshot through).refs → kept snapshot through id
  attempts : ∀ id, (.attempt, id) ∈ (keptOf snapshot through).refs →
    ∃ attempt ∈ snapshot.attempts, attempt.id = id ∧ kept snapshot through attempt.turnId
  items : ∀ id, (.item, id) ∈ (keptOf snapshot through).refs → ∃ item ∈ snapshot.items,
    item.id = id ∧ (∀ last ∈ limit snapshot through, item.position ≤ last) ∧
      ∀ turnId ∈ truthy item.turnId, kept snapshot through turnId
  /-- The requests that are named are no longer pending. -/
  requests : ∀ id, (.request, id) ∈ (keptOf snapshot through).refs →
    ∃ request ∈ snapshot.requests, request.id = id ∧ request.status ≠ .pending ∧
      ∃ turnId ∈ truthy request.turnId, kept snapshot through turnId
  /-- No item that is copied tells of one of the session's provider threads. -/
  threads : ∀ item ∈ keptItems snapshot through, ∀ id ∈ item.threadIds,
    id ∉ snapshot.ids .thread
  /-- No item of a turn that is copied stands beyond the limit. -/
  whole : ∀ turn ∈ keptTurns snapshot through, ∀ item ∈ snapshot.items,
    item.turnId = some turn.id → ∀ last ∈ limit snapshot through, item.position ≤ last

/-- The id is one that the history has or names. -/
def SessionSnapshot.Names (snapshot : SessionSnapshot) (id : Id) : Prop :=
  id = snapshot.sessionId ∨ (∃ kind, id ∈ snapshot.ids kind) ∨ ∃ ref ∈ snapshot.refs, ref.2 = id

/-- The history of one session: its entities are the session's, and its ids are apart. -/
structure History (snapshot : SessionSnapshot) : Prop where
  sessions : ∀ id ∈ snapshot.sessionIds, id = snapshot.sessionId
  nonempty : ∀ id ∈ snapshot.ids .turn, id ≠ []
  apart : ∀ kind, snapshot.sessionId ∉ snapshot.ids kind
  threads : ∀ id ∈ snapshot.ids .thread, ∀ kind, kind ≠ .thread → id ∉ snapshot.ids kind

/-- Ids that nothing in the history has or names. -/
structure Fresh (uuid : Nat → Id) (sessionId : Id) (snapshot : SessionSnapshot) : Prop where
  injective : Function.Injective uuid
  drawn : ∀ n, ¬ snapshot.Names (uuid n)
  session : ¬ snapshot.Names sessionId
  apart : ∀ n, uuid n ≠ sessionId

/-! ## The fresh ids -/

section

variable {uuid : Nat → Id} {ids : Id → Option Id} {list : List Id} {x y : Id} {n : Nat}

theorem setIds_of_not_mem (h : x ∉ list) : setIds uuid n list ids x = ids x := by
  induction list generalizing n ids with
  | nil => rfl
  | cons id list ih =>
    rw [mem_cons, not_or] at h
    rw [setIds, ih h.2, update_of_ne h.1]

theorem setIds_of_mem (h : x ∈ list) : ∃ k, n ≤ k ∧ setIds uuid n list ids x = some (uuid k) := by
  induction list generalizing n ids with
  | nil => cases h
  | cons id list ih =>
    rw [setIds]
    by_cases hlist : x ∈ list
    · obtain ⟨k, hk, hset⟩ := @ih (update ids id (some (uuid n))) (n + 1) hlist
      exact ⟨k, by omega, hset⟩
    · obtain rfl := (mem_cons.mp h).resolve_right hlist
      exact ⟨n, Nat.le_refl n, by rw [setIds_of_not_mem hlist, update_self]⟩

/-- **No two get the same.** -/
theorem setIds_inj (huuid : Function.Injective uuid) (hx : x ∈ list) (hy : y ∈ list)
    (h : setIds uuid n list ids x = setIds uuid n list ids y) : x = y := by
  induction list generalizing n ids with
  | nil => cases hx
  | cons id list ih =>
    have hlater : ∀ z w, z ∈ list → w ∉ list → w ∈ id :: list →
        setIds uuid (n + 1) list (update ids id (some (uuid n))) z ≠
          setIds uuid (n + 1) list (update ids id (some (uuid n))) w := by
      intro z w hz hw hmem heq
      obtain rfl := (mem_cons.mp hmem).resolve_right hw
      obtain ⟨k, hk, hset⟩ := @setIds_of_mem uuid
        (update ids w (some (uuid n))) list z (n + 1) hz
      rw [hset, setIds_of_not_mem hw, update_self] at heq
      have := huuid (Option.some.inj heq)
      omega
    by_cases hxl : x ∈ list <;> by_cases hyl : y ∈ list
    · exact ih hxl hyl h
    · exact absurd h (hlater x y hxl hyl hy)
    · exact absurd h.symm (hlater y x hyl hxl hx)
    · exact ((mem_cons.mp hx).resolve_right hxl).trans
        ((mem_cons.mp hy).resolve_right hyl).symm

end

variable {ref : Kind × Id}

/-! ## What is kept is of the history -/

section

variable {snapshot : SessionSnapshot} {through : Option Item} {kind : Kind} {id : Id}

theorem kept_iff : kept snapshot through id ↔ id ∈ (keptOf snapshot through).ids .turn := by
  simp [kept, keptOf, SessionSnapshot.ids]

theorem mem_copiedIds :
    id ∈ copiedIds snapshot through ↔ ∃ kind, id ∈ (keptOf snapshot through).ids kind := by
  constructor
  · intro h
    simp only [copiedIds, mem_append] at h
    rcases h with ((h | h) | h) | h
    · exact ⟨.turn, by simpa [keptOf, SessionSnapshot.ids] using h⟩
    · exact ⟨.attempt, by simpa [keptOf, SessionSnapshot.ids] using h⟩
    · exact ⟨.item, h⟩
    · exact ⟨.request, h⟩
  · rintro ⟨kind, h⟩
    simp only [copiedIds, mem_append]
    cases kind with
    | turn => exact .inl (.inl (.inl (by simpa [keptOf, SessionSnapshot.ids] using h)))
    | attempt => exact .inl (.inl (.inr (by simpa [keptOf, SessionSnapshot.ids] using h)))
    | item => exact .inl (.inr h)
    | request => exact .inr h
    | thread => cases h

theorem ids_of_keptOf (h : id ∈ (keptOf snapshot through).ids kind) : id ∈ snapshot.ids kind := by
  cases kind with
  | turn =>
    simp only [keptOf, SessionSnapshot.ids, map_map, mem_map] at h ⊢
    obtain ⟨turn, hturn, rfl⟩ := h
    exact ⟨turn, (mem_filter.mp hturn).1, rfl⟩
  | attempt =>
    simp only [keptOf, SessionSnapshot.ids, map_map, mem_map] at h ⊢
    obtain ⟨attempt, hattempt, rfl⟩ := h
    exact ⟨attempt, (mem_filter.mp hattempt).1, rfl⟩
  | item | request => exact (filter_sublist.map _).subset h
  | thread => cases h

theorem refs_of_keptOf (h : ref ∈ (keptOf snapshot through).refs) : ref ∈ snapshot.refs := by
  simp only [SessionSnapshot.refs, keptOf, mem_append, mem_flatMap, mem_map]
    at h ⊢
  rcases h with ((⟨_, ⟨turn, hturn, rfl⟩, h⟩ | ⟨_, ⟨attempt, hattempt, rfl⟩, h⟩) |
    ⟨item, hitem, h⟩) | ⟨request, hrequest, h⟩
  · refine .inl (.inl (.inl ⟨turn, (mem_filter.mp hturn).1, ?_⟩))
    simp only [Turn.refs, mem_append] at h ⊢
    exact .inl (h.resolve_right (by simp [naming]))
  · refine .inl (.inl (.inr ⟨attempt, (mem_filter.mp hattempt).1, ?_⟩))
    simp only [Attempt.refs, mem_append] at h ⊢
    exact .inl (h.resolve_right (by simp [naming]))
  · exact .inl (.inr ⟨item, (mem_filter.mp hitem).1, h⟩)
  · exact .inr ⟨request, (mem_filter.mp hrequest).1, h⟩

theorem sessionIds_of_keptOf (h : id ∈ (keptOf snapshot through).sessionIds) :
    id ∈ snapshot.sessionIds := by
  simp only [SessionSnapshot.sessionIds, keptOf, map_map, mem_append, mem_map]
    at h ⊢
  rcases h with ((⟨turn, hturn, rfl⟩ | ⟨attempt, hattempt, rfl⟩) | ⟨item, hitem, rfl⟩) |
    ⟨request, hrequest, rfl⟩
  · exact .inl (.inl (.inl ⟨turn, (mem_filter.mp hturn).1, rfl⟩))
  · exact .inl (.inl (.inr ⟨attempt, (mem_filter.mp hattempt).1, rfl⟩))
  · exact .inl (.inr ⟨item, (mem_filter.mp hitem).1, rfl⟩)
  · exact .inr ⟨request, (mem_filter.mp hrequest).1, rfl⟩

end

/-! ## The copy is what is kept, rebased -/

section

variable (f : Id → Id)

/-- What is named, with its fresh id. -/
def rebaseRef (ref : Kind × Id) : Kind × Id := (ref.1, f ref.2)

@[simp] theorem naming_map (kind : Kind) (id : Option Id) :
    naming kind (id.map f) = (naming kind id).map (rebaseRef f) := by
  cases id <;> rfl

@[simp] theorem naming_none (kind : Kind) : naming kind none = [] := rfl

@[simp] theorem naming_some (kind : Kind) (id : Id) : naming kind (some id) = [(kind, id)] := rfl

theorem Turn.refs_rebase (turn : Turn) : Turn.refs { turn.rebase f with providerThreadId := none } =
      (Turn.refs { turn with providerThreadId := none }).map (rebaseRef f) := by
  simp [Turn.refs, Turn.rebase]

theorem Attempt.refs_rebase (attempt : Attempt) :
    Attempt.refs { attempt.rebase f with providerThreadId := none } =
      (Attempt.refs { attempt with providerThreadId := none }).map (rebaseRef f) := by
  simp [Attempt.refs, Attempt.rebase, rebaseRef]

theorem Item.refs_rebase (item : Item) : (item.rebase f).refs = item.refs.map (rebaseRef f) := by
  simp [Item.refs, Item.rebase, rebaseRef]

theorem RuntimeRequest.refs_rebase (request : RuntimeRequest) :
    (request.rebase f).refs = request.refs.map (rebaseRef f) := by
  simp [RuntimeRequest.refs, RuntimeRequest.rebase]

end

variable {id : Id} {item : Item} {turn : Turn}

section

variable {snapshot : SessionSnapshot} {through : Option Item} {uuid : Nat → Id} {sessionId : Id}

theorem refs_copied : (copied snapshot through uuid sessionId).refs =
    (keptOf snapshot through).refs.map (rebaseRef (rebaseId snapshot through uuid sessionId)) := by
  simp only [SessionSnapshot.refs, copied, keptOf, map_append, map_flatMap,
    flatMap_map, Turn.refs_rebase, Attempt.refs_rebase, Item.refs_rebase,
    RuntimeRequest.refs_rebase]

theorem ids_copied (kind : Kind) : (copied snapshot through uuid sessionId).ids kind =
    ((keptOf snapshot through).ids kind).map (rebaseId snapshot through uuid sessionId) := by
  cases kind <;>
    simp [SessionSnapshot.ids, copied, keptOf, Turn.rebase, Attempt.rebase, Item.rebase,
      RuntimeRequest.rebase]

theorem sessionIds_copied : (copied snapshot through uuid sessionId).sessionIds =
    (keptOf snapshot through).sessionIds.map (rebaseId snapshot through uuid sessionId) := by
  simp [SessionSnapshot.sessionIds, copied, keptOf, Turn.rebase, Attempt.rebase, Item.rebase,
    RuntimeRequest.rebase, Function.comp_def]

/-! ## The fresh ids are apart -/

theorem rebaseId_session (hhistory : History snapshot) :
    rebaseId snapshot through uuid sessionId snapshot.sessionId = sessionId := by
  have hnot : snapshot.sessionId ∉ copiedIds snapshot through := by
    intro h
    obtain ⟨kind, h⟩ := mem_copiedIds.mp h
    exact hhistory.apart kind (ids_of_keptOf h)
  simp [rebaseId, setIds_of_not_mem hnot]

theorem rebaseId_of_mem {id : Id} (h : id ∈ copiedIds snapshot through) :
    ∃ n, rebaseId snapshot through uuid sessionId id = uuid n := by
  obtain ⟨n, -, hset⟩ := @setIds_of_mem uuid
    (update (fun _ => none) snapshot.sessionId (some sessionId)) _ id 0 h
  exact ⟨n, by simp only [rebaseId, hset, Option.getD_some]⟩

theorem rebaseId_of_not_mem (h : id ∉ copiedIds snapshot through)
    (hsession : id ≠ snapshot.sessionId) : rebaseId snapshot through uuid sessionId id = id := by
  simp [rebaseId, setIds_of_not_mem h, update_of_ne hsession]

theorem rebaseId_cases (hhistory : History snapshot) (id : Id) : (id ∈ copiedIds snapshot through ∧
      ∃ n, rebaseId snapshot through uuid sessionId id = uuid n) ∨
    (id = snapshot.sessionId ∧ rebaseId snapshot through uuid sessionId id = sessionId) ∨
    rebaseId snapshot through uuid sessionId id = id := by
  by_cases hcopied : id ∈ copiedIds snapshot through
  · exact .inl ⟨hcopied, rebaseId_of_mem hcopied⟩
  · by_cases hsession : id = snapshot.sessionId
    · exact .inr (.inl ⟨hsession, hsession ▸ rebaseId_session hhistory⟩)
    · exact .inr (.inr (rebaseId_of_not_mem hcopied hsession))

section

variable (hfresh : Fresh uuid sessionId snapshot)
include hfresh

theorem rebaseId_inj_copied {x y : Id}
    (hx : x ∈ copiedIds snapshot through) (hy : y ∈ copiedIds snapshot through)
    (h : rebaseId snapshot through uuid sessionId x =
      rebaseId snapshot through uuid sessionId y) : x = y := by
  obtain ⟨n, -, hn⟩ := @setIds_of_mem uuid
    (update (fun _ => none) snapshot.sessionId (some sessionId)) _ x 0 hx
  obtain ⟨m, -, hm⟩ := @setIds_of_mem uuid
    (update (fun _ => none) snapshot.sessionId (some sessionId)) _ y 0 hy
  apply setIds_inj hfresh.injective hx hy
  simp only [rebaseId, hn, hm, Option.getD_some] at h
  rw [hn, hm, h]

/-- **What the history has or names stays apart.** -/
theorem rebaseId_inj (hhistory : History snapshot)
    {x y : Id} (hx : snapshot.Names x) (hy : snapshot.Names y)
    (h : rebaseId snapshot through uuid sessionId x =
      rebaseId snapshot through uuid sessionId y) : x = y := by
  rcases @rebaseId_cases _ through uuid sessionId hhistory x
    with ⟨hxc, n, hfx⟩ | ⟨hxs, hfx⟩ | hfx <;>
  rcases @rebaseId_cases _ through uuid sessionId hhistory y
    with ⟨hyc, m, hfy⟩ | ⟨hys, hfy⟩ | hfy
  · exact rebaseId_inj_copied hfresh hxc hyc h
  · exact absurd (hfx.symm.trans (h.trans hfy)) (hfresh.apart n)
  · exact absurd ((hfx.symm.trans (h.trans hfy)) ▸ hy) (hfresh.drawn n)
  · exact absurd (hfy.symm.trans (h.symm.trans hfx)) (hfresh.apart m)
  · exact hxs.trans hys.symm
  · exact absurd ((hfx.symm.trans (h.trans hfy)) ▸ hy) hfresh.session
  · exact absurd ((hfy.symm.trans (h.symm.trans hfx)) ▸ hx) (hfresh.drawn m)
  · exact absurd ((hfy.symm.trans (h.symm.trans hfx)) ▸ hx) hfresh.session
  · exact hfx.symm.trans (h.trans hfy)

/-- **An id that the history has or names is the copy's when it is kept's.** -/
theorem mem_ids_copied_iff (hhistory : History snapshot) {kind : Kind} (hid : snapshot.Names id) :
    rebaseId snapshot through uuid sessionId id ∈
        (copied snapshot through uuid sessionId).ids kind ↔
      id ∈ (keptOf snapshot through).ids kind := by
  rw [ids_copied, mem_map]
  constructor
  · rintro ⟨other, hother, heq⟩
    have hnames : snapshot.Names other := .inr (.inl ⟨kind, ids_of_keptOf hother⟩)
    exact rebaseId_inj hfresh hhistory hnames hid heq ▸ hother
  · exact fun h => ⟨id, h, rfl⟩

end

theorem names_of_ref (h : ref ∈ (keptOf snapshot through).refs) : snapshot.Names ref.2 :=
  .inr (.inr ⟨ref, refs_of_keptOf h, rfl⟩)

/-! ## What closes -/

theorem mem_attempts_iff : id ∈ (keptOf snapshot through).ids .attempt ↔
    ∃ attempt ∈ snapshot.attempts, attempt.id = id ∧ kept snapshot through attempt.turnId := by
  simp [keptOf, SessionSnapshot.ids, keptAttempts, and_comm, and_left_comm]

theorem mem_items_iff : id ∈ (keptOf snapshot through).ids .item ↔
    ∃ item ∈ snapshot.items, item.id = id ∧
      (∀ last ∈ limit snapshot through, item.position ≤ last) ∧
        ∀ turnId ∈ truthy item.turnId, kept snapshot through turnId := by
  simp only [keptOf, SessionSnapshot.ids, keptItems, mem_map, mem_filter,
    Bool.and_eq_true, Option.all_eq_true, decide_eq_true_eq]
  constructor
  · rintro ⟨item, ⟨hitem, hlimit, hturn⟩, hid⟩
    exact ⟨item, hitem, hid, hlimit, hturn⟩
  · rintro ⟨item, hitem, hid, hlimit, hturn⟩
    exact ⟨item, ⟨hitem, hlimit, hturn⟩, hid⟩

theorem mem_requests_iff : id ∈ (keptOf snapshot through).ids .request ↔
    ∃ request ∈ snapshot.requests, request.id = id ∧ request.status ≠ .pending ∧
      ∃ turnId ∈ truthy request.turnId, kept snapshot through turnId := by
  simp only [keptOf, SessionSnapshot.ids, keptRequests, mem_map, mem_filter,
    Bool.and_eq_true, Option.any_eq_true, decide_eq_true_eq]
  constructor
  · rintro ⟨request, ⟨hrequest, hstatus, hturn⟩, hid⟩
    exact ⟨request, hrequest, hid, hstatus, hturn⟩
  · rintro ⟨request, hrequest, hid, hstatus, hturn⟩
    exact ⟨request, ⟨hrequest, hstatus, hturn⟩, hid⟩

/-- **What a copied entity names is copied**, in a history that can be copied. -/
theorem Closable.closed (h : Closable snapshot through)
    (href : ref ∈ (keptOf snapshot through).refs) (hkind : ref.1 ≠ .thread) :
    ref.2 ∈ (keptOf snapshot through).ids ref.1 := by
  obtain ⟨kind, id⟩ := ref
  cases kind with
  | turn => exact kept_iff.mp (h.turns id href)
  | attempt => exact mem_attempts_iff.mpr (h.attempts id href)
  | item => exact mem_items_iff.mpr (h.items id href)
  | request => exact mem_requests_iff.mpr (h.requests id href)
  | thread => exact absurd rfl hkind

theorem thread_ref (h : (.thread, id) ∈ (keptOf snapshot through).refs) :
    ∃ item ∈ keptItems snapshot through, id ∈ item.threadIds := by
  simp only [SessionSnapshot.refs, keptOf, mem_append, mem_flatMap, mem_map] at h
  rcases h with ((⟨_, ⟨turn, hturn, rfl⟩, h⟩ | ⟨_, ⟨attempt, hattempt, rfl⟩, h⟩) |
    ⟨item, hitem, h⟩) | ⟨request, hrequest, h⟩
  · simp [Turn.refs, naming] at h
  · simp [Attempt.refs] at h
  · exact ⟨item, hitem, by simpa [Item.refs, naming] using h⟩
  · simp [RuntimeRequest.refs, naming] at h

theorem ref_thread (hitem : item ∈ keptItems snapshot through) (h : id ∈ item.threadIds) :
    (.thread, id) ∈ (keptOf snapshot through).refs := by
  simp only [SessionSnapshot.refs, mem_append, mem_flatMap]
  exact .inl (.inr ⟨item, hitem, by simp [Item.refs, h]⟩)

/-! ## The copy stands on its own -/

theorem names_of_turn (h : turn ∈ snapshot.turns) : snapshot.Names turn.id :=
  .inr (.inl ⟨.turn, mem_map_of_mem h⟩)

theorem names_of_item_turn (h : item ∈ snapshot.items) (hturn : item.turnId = some id) :
    snapshot.Names id := by
  refine .inr (.inr ⟨(.turn, id), ?_, rfl⟩)
  simp only [SessionSnapshot.refs, mem_append, mem_flatMap]
  exact .inl (.inr ⟨item, h, by simp [Item.refs, hturn]⟩)

/-- What is kept of what is named, and no id of the source's is left, but a provider thread's. -/
theorem ours_of_closed (hfresh : Fresh uuid sessionId snapshot) {kind : Kind}
    (h : id ∈ (keptOf snapshot through).ids kind) (other : Kind) :
    rebaseId snapshot through uuid sessionId id ∉ snapshot.ids other := by
  obtain ⟨n, hn⟩ := @rebaseId_of_mem _ _ uuid sessionId _ (mem_copiedIds.mpr ⟨kind, h⟩)
  rw [hn]
  exact fun hmem => hfresh.drawn n (.inr (.inl ⟨other, hmem⟩))

section

variable (hfresh : Fresh uuid sessionId snapshot) (hhistory : History snapshot)
include hfresh hhistory

/-- **A provider thread's id stays what it was.** -/
theorem thread_left : rebaseId snapshot through uuid sessionId id ∈ snapshot.ids .thread ↔
      id ∈ snapshot.ids .thread := by
  constructor
  · intro h
    rcases @rebaseId_cases _ through uuid sessionId hhistory id with
      ⟨-, n, hid⟩ | ⟨-, hid⟩ | hid
    · rw [hid] at h
      exact absurd (.inr (.inl ⟨.thread, h⟩)) (hfresh.drawn n)
    · rw [hid] at h
      exact absurd (.inr (.inl ⟨.thread, h⟩)) hfresh.session
    · rwa [hid] at h
  · intro h
    have hcopied : id ∉ copiedIds snapshot through := by
      intro hcopied
      obtain ⟨kind, hkind⟩ := mem_copiedIds.mp hcopied
      by_cases heq : kind = .thread
      · subst heq
        cases hkind
      · exact hhistory.threads id h kind heq (ids_of_keptOf hkind)
    have hsession : id ≠ snapshot.sessionId := fun heq => hhistory.apart .thread (heq ▸ h)
    rwa [rebaseId_of_not_mem hcopied hsession]

omit hfresh hhistory in
theorem sessions_copied (hhistory : History snapshot) :
    ∀ id ∈ (copied snapshot through uuid sessionId).sessionIds, id = sessionId := by
  intro id h
  rw [sessionIds_copied, mem_map] at h
  obtain ⟨other, hother, rfl⟩ := h
  rw [hhistory.sessions other (sessionIds_of_keptOf hother)]
  exact rebaseId_session hhistory

/-- **No item of a turn that is not copied is.** -/
theorem dropped_copied
    (hturn : turn ∈ snapshot.turns) (hout : rebaseId snapshot through uuid sessionId turn.id ∉
      (copied snapshot through uuid sessionId).ids .turn) (hof : item.turnId = some turn.id) :
    item.rebase (rebaseId snapshot through uuid sessionId) ∉
      (copied snapshot through uuid sessionId).items := by
  intro hmem
  obtain ⟨other, hother, heq⟩ := mem_map.mp hmem
  have hitem := mem_filter.mp hother
  have hturnId := congrArg Item.turnId heq
  simp only [Item.rebase, hof, Option.map_some, Option.map_eq_some_iff] at hturnId
  obtain ⟨id, hid, hrebase⟩ := hturnId
  obtain rfl := rebaseId_inj hfresh hhistory (names_of_item_turn hitem.1 hid)
    (names_of_turn hturn) hrebase
  have hne : turn.id ≠ [] := hhistory.nonempty _ (mem_map_of_mem hturn)
  have hkept : kept snapshot through turn.id = true := by
    have hall := (Bool.and_eq_true_iff.mp hitem.2).2
    simpa [truthy, hid, hne] using hall
  exact hout ((mem_ids_copied_iff hfresh hhistory (names_of_turn hturn)).mpr (kept_iff.mp hkept))

omit hfresh hhistory in
theorem position_of_copied (h : item.rebase (rebaseId snapshot through uuid sessionId) ∈
      (copied snapshot through uuid sessionId).items) :
    ∀ last ∈ limit snapshot through, item.position ≤ last := by
  obtain ⟨other, hother, heq⟩ := mem_map.mp h
  have hposition := congrArg Item.position heq
  change other.position = item.position at hposition
  have hlimit := (Bool.and_eq_true_iff.mp (mem_filter.mp hother).2).1
  intro last hlast
  rw [← hposition]
  simpa using (Option.all_eq_true _ _).mp hlimit last hlast

omit hfresh hhistory in
theorem copied_of_position (hturn : turn ∈ keptTurns snapshot through)
    (hitem : item ∈ snapshot.items) (hof : item.turnId = some turn.id)
    (hlimit : ∀ last ∈ limit snapshot through, item.position ≤ last) :
    item.rebase (rebaseId snapshot through uuid sessionId) ∈
      (copied snapshot through uuid sessionId).items := by
  refine mem_map_of_mem (mem_filter.mpr ⟨hitem, Bool.and_eq_true_iff.mpr ⟨?_, ?_⟩⟩)
  · exact (Option.all_eq_true _ _).mpr fun last hlast => decide_eq_true (hlimit last hlast)
  · refine (Option.all_eq_true _ _).mpr fun id hid => ?_
    rw [hof] at hid
    obtain ⟨rfl⟩ := (Option.mem_filter_iff.mp hid).1
    exact any_eq_true.mpr ⟨turn, hturn, by simp⟩

theorem faithful_of_closable (h : Closable snapshot through) :
    Faithful snapshot (copied snapshot through uuid sessionId)
      (rebaseId snapshot through uuid sessionId) where
  closed := by
    intro ref href hkind
    rw [refs_copied, mem_map] at href
    obtain ⟨source, hsource, rfl⟩ := href
    exact (mem_ids_copied_iff hfresh hhistory (names_of_ref hsource)).mpr
      (h.closed hsource hkind)
  ours := by
    intro ref href
    rw [refs_copied, mem_map] at href
    obtain ⟨⟨kind, id⟩, hsource, rfl⟩ := href
    by_cases hkind : kind = .thread
    · subst hkind
      obtain ⟨item, hitem, hid⟩ := thread_ref hsource
      exact fun hmem => h.threads item hitem id hid ((thread_left hfresh hhistory).mp hmem)
    · exact ours_of_closed hfresh (h.closed hsource hkind) kind
  sessions := sessions_copied hhistory
  whole := by
    intro turn hturn hin item hitem hof
    have hkept : kept snapshot through turn.id = true :=
      kept_iff.mpr ((mem_ids_copied_iff hfresh hhistory (names_of_turn hturn)).mp hin)
    obtain ⟨other, hother, hid⟩ := any_eq_true.mp hkept
    rw [← of_decide_eq_true hid] at hof
    exact copied_of_position hother hitem hof (h.whole other hother item hitem hof)
  dropped := fun turn hturn hout item _ => dropped_copied hfresh hhistory hturn hout

theorem closable_of_faithful (h : Faithful snapshot (copied snapshot through uuid sessionId)
      (rebaseId snapshot through uuid sessionId)) : Closable snapshot through := by
  have hclosed : ∀ ref ∈ (keptOf snapshot through).refs, ref.1 ≠ .thread →
      ref.2 ∈ (keptOf snapshot through).ids ref.1 := by
    intro ref href hkind
    refine (mem_ids_copied_iff hfresh hhistory (names_of_ref href)).mp
      (h.closed (rebaseRef (rebaseId snapshot through uuid sessionId) ref) ?_ hkind)
    rw [refs_copied]
    exact mem_map_of_mem href
  refine ⟨fun id href => kept_iff.mpr (hclosed _ href (by simp)),
    fun id href => mem_attempts_iff.mp (hclosed _ href (by simp)),
    fun id href => mem_items_iff.mp (hclosed _ href (by simp)),
    fun id href => mem_requests_iff.mp (hclosed _ href (by simp)), ?_, ?_⟩
  · intro item hitem id hid hmem
    have href := mem_map_of_mem (f := rebaseRef (rebaseId snapshot through uuid sessionId))
      (ref_thread hitem hid)
    rw [← refs_copied] at href
    exact h.ours _ href ((thread_left hfresh hhistory).mpr hmem)
  · intro turn hturn item hitem hof
    have hsource := (mem_filter.mp hturn).1
    refine position_of_copied (h.whole turn hsource ?_ item hitem hof)
    exact (mem_ids_copied_iff hfresh hhistory (names_of_turn hsource)).mpr
      (kept_iff.mp (any_eq_true.mpr ⟨turn, hturn, by simp⟩))

end

end

/-- **A copy of settled history stands on its own exactly when the history can be copied
there**: when no turn, attempt, item or request that is copied names one that is left behind, no
item that is copied tells of a provider thread, and no turn has items beyond the limit. -/
theorem copySettledHistory_faithful_iff {uuid : Nat → Id} {snapshot copy : SessionSnapshot}
    {sessionId : Id} {throughItemId : Option Id} {fork : Option ForkPoint}
    (hfresh : Fresh uuid sessionId snapshot) (hhistory : History snapshot)
    (h : copySettledHistory uuid snapshot sessionId throughItemId = some (copy, fork)) :
    Faithful snapshot copy (rebaseId snapshot (throughItem snapshot throughItemId) uuid sessionId) ↔
      Closable snapshot (throughItem snapshot throughItemId) := by
  simp only [copySettledHistory] at h
  split at h
  · cases h
  · obtain ⟨rfl, -⟩ := Prod.mk.inj (Option.some.inj h)
    exact ⟨closable_of_faithful hfresh hhistory, faithful_of_closable hfresh hhistory⟩

/-! ## A question that is asked, and its turn completed -/

section

variable (status : RuntimeRequestStatus)

/-- A message, and a question that its turn asks. -/
def asked : SessionSnapshot where
  sessionId := [0x73]
  turns := [⟨[0x74], [0x73], 1, .completed, some [0x6D], some [0x61], none, none, .null⟩]
  attempts := [⟨[0x61], [0x73], [0x74], 1, none, none, .null⟩]
  items :=
    [⟨[0x6D], [0x73], some [0x74], none, none, 1, none, [], .null⟩,
      ⟨[0x69], [0x73], some [0x74], some [0x61], none, 2, some [0x72], [], .null⟩]
  requests := [⟨[0x72], [0x73], some [0x74], some [0x61], some [0x69], status, .null⟩]
  providerThreads := []
  olderBefore := none
  rest := .null

def drawn (n : Nat) : Id := List.replicate (n + 3) 0x75

/-- The session that the copy is for. -/
def forkId : Id := [0x66, 0x6B]

variable {status}

theorem length_of_names (h : (asked status).Names id) : id.length = 1 := by
  rcases h with rfl | ⟨kind, h⟩ | ⟨ref, h, rfl⟩
  · rfl
  · cases kind <;> simp only [asked, SessionSnapshot.ids, map_cons, map_nil,
      mem_cons, not_mem_nil, or_false] at h
    · rw [h]; rfl
    · rw [h]; rfl
    · rcases h with rfl | rfl <;> rfl
    · rw [h]; rfl
  · have hrefs : ∀ ref ∈ (asked status).refs, ref.2.length = 1 := by
      simp [asked, SessionSnapshot.refs, Turn.refs, Attempt.refs, Item.refs, RuntimeRequest.refs]
    exact hrefs ref h

theorem fresh_asked : Fresh drawn forkId (asked status) where
  injective := by
    intro n m h
    have hlength := congrArg List.length h
    simpa [drawn] using hlength
  drawn := fun n h => by simpa [drawn] using length_of_names h
  session := fun h => absurd (length_of_names h) (by decide)
  apart := fun n h => by simpa [drawn, forkId] using congrArg List.length h

theorem history_asked : History (asked status) where
  sessions := by simp [asked, SessionSnapshot.sessionIds]
  nonempty := by simp [asked, SessionSnapshot.ids]
  apart := by
    intro kind
    cases kind <;> simp [asked, SessionSnapshot.ids]
  threads := by simp [asked, SessionSnapshot.ids]

end

theorem refs_resolved : (keptOf (asked .resolved) none).refs =
    [(.item, [0x6D]), (.attempt, [0x61]), (.turn, [0x74]), (.turn, [0x74]), (.turn, [0x74]),
      (.attempt, [0x61]), (.request, [0x72]), (.turn, [0x74]), (.attempt, [0x61]),
      (.item, [0x69])] := by
  decide +kernel

theorem closable_resolved : Closable (asked .resolved) none where
  turns := by
    intro id h
    obtain rfl : id = [0x74] := by simpa [refs_resolved] using h
    decide +kernel
  attempts := by
    intro id h
    obtain rfl : id = [0x61] := by simpa [refs_resolved] using h
    exact ⟨_, .head _, rfl, by decide +kernel⟩
  items := by
    intro id h
    obtain rfl | rfl : id = [0x6D] ∨ id = [0x69] := by simpa [refs_resolved] using h
    · exact ⟨_, .head _, rfl, by simp [limit], by decide +kernel⟩
    · exact ⟨_, .tail _ (.head _), rfl, by simp [limit], by decide +kernel⟩
  requests := by
    intro id h
    obtain rfl : id = [0x72] := by simpa [refs_resolved] using h
    exact ⟨_, .head _, rfl, by decide, [0x74], by decide +kernel, by decide +kernel⟩
  threads := by simp [SessionSnapshot.ids, asked]
  whole := by simp [limit]

theorem copySettledHistory_faithful_resolved :
    Faithful (asked .resolved) (copied (asked .resolved) none drawn forkId)
      (rebaseId (asked .resolved) none drawn forkId) := by
  have h : copySettledHistory drawn (asked .resolved) forkId none =
      some (copied (asked .resolved) none drawn forkId, forkPoint (asked .resolved) none) := rfl
  exact (copySettledHistory_faithful_iff fresh_asked history_asked h).mpr closable_resolved

/-- The question is still pending: its request stays behind, and the copy's item names it. -/
theorem pending_request_named : Fresh drawn forkId (asked .pending) ∧ History (asked .pending) ∧
      copySettledHistory drawn (asked .pending) forkId none =
        some (copied (asked .pending) none drawn forkId, forkPoint (asked .pending) none) ∧
      (.request, [0x72]) ∈ (copied (asked .pending) none drawn forkId).refs ∧
      [0x72] ∈ (asked .pending).ids .request ∧
      (copied (asked .pending) none drawn forkId).ids .request = [] ∧
      ¬ Faithful (asked .pending) (copied (asked .pending) none drawn forkId)
        (rebaseId (asked .pending) none drawn forkId) := by
  have href : (.request, [0x72]) ∈ (copied (asked .pending) none drawn forkId).refs := by
    decide +kernel
  refine ⟨fresh_asked, history_asked, rfl, href, .head _, by decide +kernel, fun h => ?_⟩
  exact h.ours _ href (.head _)

end Catamorphic.Sessions.Copy
