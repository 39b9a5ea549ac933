import Catamorphic.Lib.Runs

/-!
# Work held under a lease

A piece of work in a database is held by one worker at a time. A holder's lease is a fresh
token with an expiry in the work's row: a claim takes work that waits, or work whose lease
lapsed. A holder changes the guarded data only in transactions that begin by checking the
lease. Such a transaction goes on in steps of its own: the check, the lock it may wait
for, the commit. A lease may lapse and be claimed by another between any two of them.

The module has the protocol over any data, holder memory and transactions, and two results
about runs in which no claim commits while a checked transaction is open: every commit is
made under its own token, and what one holder's transactions keep of the data is kept by
all of them in any interleaving.
-/

namespace Catamorphic.Lease

open Runs Option

/-- Where a piece of work stands. -/
inductive Status
  | queued
  | active
  | settled
  deriving DecidableEq

/--
What is done under the lease: `σ` is the guarded data with whatever else a holder can
reach, `μ` a holder's memory, `α` its guarded transactions, `β` what it does outside of
them, `γ` what others do to the data.
-/
structure Work (σ μ α β γ : Type) where
  status : σ → Status
  /-- The data when waiting work is claimed. -/
  claimed : σ → σ
  /-- A new holder's memory. -/
  fresh : μ
  /-- Whether a transaction takes the lock before it writes. -/
  locks : α → Bool
  /-- Whether it ends the lease. -/
  releases : α → Bool
  /-- The data and the holder's memory once a transaction committed. -/
  commit : α → μ → σ → Option (σ × μ)
  /-- The holder's memory when its transaction failed. -/
  undo : α → μ → μ
  act : β → μ → σ → Option (σ × μ)
  outside : γ → σ → Option σ

/-- A guarded transaction whose check passed. -/
structure Tx (α : Type) where
  action : α
  locked : Bool := false
  deriving DecidableEq

structure Holder (μ α : Type) where
  mem : μ
  tx : Option (Tx α) := none

/-- Who has the lock. -/
inductive Owner
  | claim (i : Nat)
  | holder (t : Nat)
  | other
  deriving DecidableEq

/-- A commit: the token it was made with, and the one the row carried. -/
structure Commit where
  token : Nat
  row : Option Nat
  deriving DecidableEq

structure State (σ μ α : Type) where
  data : σ
  clock : Nat := 0
  token : Option Nat := none
  expires : Option Nat := none
  /-- The row names a worker, which renews the lease. -/
  owned : Bool := false
  lock : Option Owner := none
  /-- The claims in progress, with the time their transaction began. -/
  claims : Nat → Option Nat := fun _ => none
  /-- The holders that run, by their token. -/
  holders : Nat → Option (Holder μ α) := fun _ => none
  /-- The next token. -/
  next : Nat := 0
  commits : List Commit := []

inductive Event (α β γ : Type)
  | tick (d : Nat)
  | claimBegin (i : Nat)
  | claimLock (i : Nat)
  | claimTake (i : Nat)
  | claimEnd (i : Nat)
  | renew (t since : Nat)
  | handBack (t since : Nat)
  | crash (t : Nat)
  | act (t : Nat) (b : β)
  | check (t : Nat) (a : α)
  | lock (t : Nat)
  | commit (t : Nat)
  | rollback (t : Nat)
  | lockOther
  | unlockOther
  | outside (c : γ)

variable {σ μ α β γ : Type}

def State.setHolder (s : State σ μ α) (t : Nat) (h : Option (Holder μ α)) : State σ μ α :=
  { s with holders := fun u => if u = t then h else s.holders u }

def State.setClaim (s : State σ μ α) (i : Nat) (since : Option Nat) : State σ μ α :=
  { s with claims := fun j => if j = i then since else s.claims j }

/-- The lock as `o` leaves it. -/
def State.unlock (s : State σ μ α) (o : Owner) : State σ μ α :=
  { s with lock := if s.lock = some o then none else s.lock }

/-- Whether `t` still holds the work. -/
def State.Owns (s : State σ μ α) (t : Nat) : Prop :=
  s.token = some t ∧ s.expires.any (s.clock < ·)

instance (s : State σ μ α) (t : Nat) : Decidable (s.Owns t) := inferInstanceAs (Decidable (_ ∧ _))

section Step

variable (W : Work σ μ α β γ) (ttl : Nat)

/-- A claim may take work that waits, or work whose lease lapsed before the claim began. -/
def Claimable (s : State σ μ α) (since : Nat) : Prop :=
  W.status s.data = .queued ∨ (W.status s.data = .active ∧ s.expires.all (· ≤ since))

instance (s : State σ μ α) (since : Nat) : Decidable (Claimable W s since) :=
  inferInstanceAs (Decidable (_ ∨ _))

/-- The state after a claim committed: a fresh token, a holder that remembers nothing. -/
def State.take (s : State σ μ α) (i since : Nat) : State σ μ α :=
  let data := if W.status s.data = .queued then W.claimed s.data else s.data
  let row : State σ μ α :=
    { s with
      data
      token := some s.next
      expires := some (since + ttl)
      owned := true
      next := s.next + 1 }
  ((row.setHolder s.next (some { mem := W.fresh })).setClaim i none).unlock (.claim i)

/-- The state after the transaction `a` of holder `t` committed. -/
def State.commitTx (s : State σ μ α) (t : Nat) (a : α) (data : σ) (mem : μ) : State σ μ α :=
  let row : State σ μ α :=
    { s with
      data
      token := if W.releases a then none else s.token
      expires := if W.releases a then none else s.expires
      owned := s.owned && !W.releases a
      commits := s.commits ++ [⟨t, s.token⟩] }
  (row.setHolder t (some { mem })).unlock (.holder t)

def step (s : State σ μ α) : Event α β γ → Option (State σ μ α)
  | .tick d => some { s with clock := s.clock + d }
  | .claimBegin i => if s.claims i = none then some (s.setClaim i (some s.clock)) else none
  | .claimLock i =>
    if (s.claims i).isSome ∧ s.lock = none then some { s with lock := some (.claim i) } else none
  | .claimTake i =>
    match s.claims i with
    | some since =>
      if s.lock = some (.claim i) ∧ Claimable W s since then some (s.take W ttl i since)
      else none
    | none => none
  | .claimEnd i => some ((s.setClaim i none).unlock (.claim i))
  -- One statement: its now() is when it began, its conditions see the row as it is.
  | .renew t since =>
    if since ≤ s.clock ∧ s.token = some t ∧ s.owned ∧ W.status s.data = .active ∧
        s.expires.any (since < ·) then
      some { s with expires := some (since + ttl) }
    else none
  | .handBack t since =>
    if since ≤ s.clock ∧ s.token = some t then
      some { s with expires := some since, owned := false }
    else none
  | .crash t => some ((s.setHolder t none).unlock (.holder t))
  | .act t b =>
    match s.holders t with
    | some ⟨mem, none⟩ =>
      (W.act b mem s.data).map fun r =>
        { s with data := r.1 }.setHolder t (some { mem := r.2 })
    | _ => none
  | .check t a =>
    match s.holders t with
    | some ⟨mem, none⟩ =>
      if s.Owns t then some (s.setHolder t (some { mem, tx := some { action := a } })) else none
    | _ => none
  | .lock t =>
    match s.holders t with
    | some ⟨mem, some tx⟩ =>
      if W.locks tx.action ∧ s.lock = none then
        some ({ s with lock := some (.holder t) }.setHolder t
          (some { mem, tx := some { tx with locked := true } }))
      else none
    | _ => none
  | .commit t =>
    match s.holders t with
    | some ⟨mem, some tx⟩ =>
      if W.locks tx.action → tx.locked then
        (W.commit tx.action mem s.data).map fun r => s.commitTx W t tx.action r.1 r.2
      else none
    | _ => none
  | .rollback t =>
    match s.holders t with
    | some ⟨mem, some tx⟩ =>
      some ((s.setHolder t (some { mem := W.undo tx.action mem })).unlock (.holder t))
    | _ => none
  | .lockOther => if s.lock = none then some { s with lock := some .other } else none
  | .unlockOther => some (s.unlock .other)
  | .outside c =>
    if s.lock = none then (W.outside c s.data).map fun data => { s with data } else none

end Step

/-- No claim commits while a transaction whose check passed is open. -/
def Exclusive (s : State σ μ α) : Event α β γ → Prop
  | .claimTake _ => ∀ t < s.next, ((s.holders t).bind Holder.tx).isNone
  | _ => True

instance (s : State σ μ α) : (e : Event α β γ) → Decidable (Exclusive s e)
  | .claimTake _ => inferInstanceAs (Decidable (∀ t < s.next, _))
  | .tick _ | .claimBegin _ | .claimLock _ | .claimEnd _ | .renew _ _ | .handBack _ _
  | .crash _ | .act _ _ | .check _ _ | .lock _ | .commit _ | .rollback _ | .lockOther
  | .unlockOther | .outside _ => .isTrue trivial

/-- The transactions that fail are ones `undoable` allows. -/
def Undone (undoable : α → μ → Prop) (s : State σ μ α) : Event α β γ → Prop
  | .rollback t =>
    ∀ h, s.holders t = some h → ∀ tx, h.tx = some tx → undoable tx.action h.mem
  | _ => True

/-! ## What the parts of a step leave alone -/

@[simp] theorem setHolder_data (s : State σ μ α) (t : Nat) (h : Option (Holder μ α)) :
    (s.setHolder t h).data = s.data := rfl

@[simp] theorem setHolder_token (s : State σ μ α) (t : Nat) (h : Option (Holder μ α)) :
    (s.setHolder t h).token = s.token := rfl

@[simp] theorem setHolder_next (s : State σ μ α) (t : Nat) (h : Option (Holder μ α)) :
    (s.setHolder t h).next = s.next := rfl

@[simp] theorem setHolder_commits (s : State σ μ α) (t : Nat) (h : Option (Holder μ α)) :
    (s.setHolder t h).commits = s.commits := rfl

@[simp] theorem unlock_data (s : State σ μ α) (o : Owner) : (s.unlock o).data = s.data := rfl

@[simp] theorem unlock_token (s : State σ μ α) (o : Owner) : (s.unlock o).token = s.token := rfl

@[simp] theorem unlock_holders (s : State σ μ α) (o : Owner) :
    (s.unlock o).holders = s.holders := rfl

@[simp] theorem unlock_next (s : State σ μ α) (o : Owner) : (s.unlock o).next = s.next := rfl

@[simp] theorem unlock_commits (s : State σ μ α) (o : Owner) :
    (s.unlock o).commits = s.commits := rfl

/-- The holders after one of them changed. -/
theorem setHolder_holders (s : State σ μ α) (t u : Nat) (h : Option (Holder μ α)) :
    (s.setHolder t h).holders u = if u = t then h else s.holders u := rfl

variable {t : Nat}

/-- A holder found after one of them changed is that one, or was there before. -/
theorem setHolder_cases {s : State σ μ α} {u : Nat} {h : Option (Holder μ α)} {h' : Holder μ α}
    (hu : (s.setHolder t h).holders u = some h') :
    (u = t ∧ h = some h') ∨ (u ≠ t ∧ s.holders u = some h') := by
  rw [setHolder_holders] at hu
  by_cases hut : u = t
  · rw [if_pos hut] at hu
    exact .inl ⟨hut, hu⟩
  · rw [if_neg hut] at hu
    exact .inr ⟨hut, hu⟩

/-! ## Commits are fenced -/

/-- The tokens behind a state: who has an open transaction holds the work. -/
structure Fenced (s : State σ μ α) : Prop where
  /-- Holders have tokens given out before. -/
  holders : ∀ t h, s.holders t = some h → t < s.next
  /-- So has the row. -/
  token : ∀ t, s.token = some t → t < s.next
  /-- A holder in a checked transaction has the row's token. -/
  own : ∀ t h, s.holders t = some h → h.tx.isSome → s.token = some t
  /-- Every commit was made under its own token. -/
  commits : ∀ c ∈ s.commits, c.row = some c.token

variable {s s' : State σ μ α}

theorem fenced_start (data : σ) : Fenced ({ data } : State σ μ α) :=
  ⟨by simp, by simp, by simp, by simp⟩

theorem Fenced.same (h : Fenced s) (htoken : s'.token = s.token)
    (hholders : s'.holders = s.holders) (hnext : s'.next = s.next)
    (hcommits : s'.commits = s.commits) : Fenced s' := by
  refine ⟨?_, ?_, ?_, ?_⟩
  · rw [hholders, hnext]
    exact h.holders
  · rw [htoken, hnext]
    exact h.token
  · rw [hholders, htoken]
    exact h.own
  · rw [hcommits]
    exact h.commits

theorem Fenced.unlock (h : Fenced s) (o : Owner) : Fenced (s.unlock o) :=
  h.same rfl rfl rfl rfl

variable {h' : Option (Holder μ α)}

/-- A holder that goes, or goes on in a transaction only with the row's token. -/
theorem Fenced.setHolder (h : Fenced s) (hlt : h'.isSome → t < s.next)
    (hown : ∀ h₁, h' = some h₁ → h₁.tx.isSome → s.token = some t) : Fenced (s.setHolder t h') := by
  refine ⟨?_, h.token, ?_, h.commits⟩
  · intro u h₁ hu
    rcases setHolder_cases hu with ⟨rfl, hh⟩ | ⟨_, hu⟩
    · exact hlt (by rw [hh]; rfl)
    · exact h.holders u h₁ hu
  · intro u h₁ hu htx
    rcases setHolder_cases hu with ⟨rfl, hh⟩ | ⟨_, hu⟩
    · exact hown h₁ hh htx
    · exact h.own u h₁ hu htx

variable {mem : μ} {data : σ} {e : Event α β γ} {tx : Tx α} {mem' : μ}

section

variable {W : Work σ μ α β γ} {ttl : Nat}

/-- A claim that finds no transaction open. -/
theorem Fenced.take {i since : Nat} (h : Fenced s)
    (hidle : ∀ t < s.next, ((s.holders t).bind Holder.tx).isNone) :
    Fenced (s.take W ttl i since) := by
  refine Fenced.unlock ⟨?_, ?_, ?_, ?_⟩ _
  · intro u h₁ hu
    rcases setHolder_cases hu with ⟨rfl, _⟩ | ⟨_, hu⟩
    · exact Nat.lt_succ_self _
    · exact Nat.lt_succ_of_lt (h.holders u h₁ hu)
  · intro t ht
    rw [some.inj ht.symm]
    exact Nat.lt_succ_self _
  · intro u h₁ hu htx
    rcases setHolder_cases hu with ⟨_, hh⟩ | ⟨_, hu⟩
    · rw [some.inj hh.symm] at htx
      cases htx
    · -- an old holder's transaction would have been open when the claim committed
      have hnone := hidle u (h.holders u h₁ hu)
      rw [show s.holders u = some h₁ from hu, bind_some] at hnone
      rw [isNone_iff_eq_none.mp hnone] at htx
      cases htx
  · exact h.commits

/-- A commit: the row carries the holder's token, and no one else has a transaction open. -/
theorem Fenced.commitTx (h : Fenced s)
    (ht : s.holders t = some ⟨mem, some tx⟩) : Fenced (s.commitTx W t tx.action data mem') := by
  have htoken : s.token = some t := h.own t _ ht rfl
  refine Fenced.unlock ⟨?_, ?_, ?_, ?_⟩ _
  · intro u h₁ hu
    rcases setHolder_cases hu with ⟨rfl, _⟩ | ⟨_, hu⟩
    · exact h.holders _ _ ht
    · exact h.holders u h₁ hu
  · intro u hu
    refine h.token u ?_
    split at hu
    · cases hu
    · exact hu
  · intro u h₁ hu htx
    rcases setHolder_cases hu with ⟨_, hh⟩ | ⟨hne, hu⟩
    · rw [some.inj hh.symm] at htx
      cases htx
    · have := h.own u h₁ hu htx
      rw [htoken, some.injEq] at this
      exact absurd this.symm hne
  · intro c hc
    rcases List.mem_append.mp hc with hc | hc
    · exact h.commits c hc
    · rw [List.mem_singleton.mp hc]
      exact htoken

theorem fenced_step (h : Fenced s) (hex : Exclusive s e) (hs : step W ttl s e = some s') :
    Fenced s' := by
  cases e with
  | tick d | claimEnd i | unlockOther =>
    rw [← some.inj hs]
    exact h.same rfl rfl rfl rfl
  | claimBegin i | claimLock i | renew t since | handBack t since | lockOther =>
    simp only [step, ite_none_right_eq_some, some.injEq] at hs
    rw [← hs.2]
    exact h.same rfl rfl rfl rfl
  | claimTake i =>
    simp only [step] at hs
    split at hs
    · simp only [ite_none_right_eq_some, some.injEq] at hs
      rw [← hs.2]
      exact h.take hex
    · cases hs
  | crash t =>
    rw [← some.inj hs]
    refine Fenced.unlock (h.setHolder ?_ ?_) _
    · intro hsome
      cases hsome
    · intro h₁ hnone
      cases hnone
  | act t b =>
    simp only [step] at hs
    split at hs
    · rename_i mem ht
      obtain ⟨r, _, hr⟩ := map_eq_some_iff.mp hs
      rw [← hr]
      refine Fenced.setHolder (s := { s with data := r.1 }) (h.same rfl rfl rfl rfl)
        (fun _ => h.holders _ _ ht) ?_
      intro h₁ hh htx
      rw [← some.inj hh] at htx
      cases htx
    · cases hs
  | check t a =>
    simp only [step] at hs
    split at hs
    · rename_i mem ht
      simp only [ite_none_right_eq_some, some.injEq] at hs
      rw [← hs.2]
      exact h.setHolder (fun _ => h.holders _ _ ht) (fun _ _ _ => hs.1.1)
    · cases hs
  | lock t =>
    simp only [step] at hs
    split at hs
    · rename_i mem tx ht
      simp only [ite_none_right_eq_some, some.injEq] at hs
      rw [← hs.2]
      exact Fenced.setHolder (s := { s with lock := some (.holder t) }) (h.same rfl rfl rfl rfl)
        (fun _ => h.holders _ _ ht) (fun _ _ _ => h.own _ _ ht rfl)
    · cases hs
  | commit t =>
    simp only [step] at hs
    split at hs
    · rename_i mem tx ht
      simp only [ite_none_right_eq_some] at hs
      obtain ⟨r, _, hr⟩ := map_eq_some_iff.mp hs.2
      rw [← hr]
      exact h.commitTx ht
    · cases hs
  | rollback t =>
    simp only [step] at hs
    split at hs
    · rename_i mem tx ht
      rw [← some.inj hs]
      exact (h.setHolder (fun _ => h.holders _ _ ht) (fun _ _ _ => h.own _ _ ht rfl)).unlock _
    · cases hs
  | outside c =>
    simp only [step, ite_none_right_eq_some] at hs
    obtain ⟨d, _, hd⟩ := map_eq_some_iff.mp hs.2
    rw [← hd]
    exact h.same rfl rfl rfl rfl

/-- **Under exclusive claims every commit is made under its own token.** -/
theorem fenced_reachable (hr : Reach (step W ttl) Exclusive { data } s) : Fenced s :=
  hr.invariant (fenced_start data) (fun _ _ _ => fenced_step)

end

/-! ## What one holder keeps, all of them keep -/

/--
What the parts of a step keep of the data: `Good` of the data, `Known` of any holder's
memory against the data, `Sync` of the memory of who holds the work.
-/
structure Rules (W : Work σ μ α β γ) (Good : σ → Prop) (Known Sync : μ → σ → Prop)
    (undoable : α → μ → Prop) : Prop where
  fresh : ∀ {d}, Good d → Known W.fresh d ∧ Sync W.fresh d
  claimed : ∀ {d}, Good d → W.status d = .queued →
    Good (W.claimed d) ∧ ∀ m, Known m d → Known m (W.claimed d)
  commit : ∀ {a m d d' m'}, Good d → Known m d → Sync m d → W.commit a m d = some (d', m') →
    Good d' ∧ Known m' d' ∧ Sync m' d' ∧ ∀ m₂, Known m₂ d → Known m₂ d'
  undo : ∀ {a m d}, undoable a m → Good d → Known m d → Sync m d →
    Known (W.undo a m) d ∧ Sync (W.undo a m) d
  act : ∀ {b m d d' m'}, Good d → Known m d → W.act b m d = some (d', m') →
    Good d' ∧ Known m' d' ∧ (Sync m d → Sync m' d') ∧
      ∀ m₂, (Known m₂ d → Known m₂ d') ∧ (Sync m₂ d → Sync m₂ d')
  outside : ∀ {c d d'}, Good d → W.outside c d = some d' →
    Good d' ∧ ∀ m, (Known m d → Known m d') ∧ (Sync m d → Sync m d')

/-- The data is good, every memory is true of it, and that of who holds the work is in step. -/
structure Kept (Good : σ → Prop) (Known Sync : μ → σ → Prop) (s : State σ μ α) : Prop where
  good : Good s.data
  known : ∀ t h, s.holders t = some h → Known h.mem s.data
  sync : ∀ t h, s.holders t = some h → s.token = some t → Sync h.mem s.data

section

variable {W : Work σ μ α β γ} {ttl : Nat} {Good : σ → Prop} {Known Sync : μ → σ → Prop}
  {undoable : α → μ → Prop}

theorem kept_start (h : Good data) : Kept Good Known Sync ({ data } : State σ μ α) :=
  ⟨h, by simp, by simp⟩

section

variable (h : Kept Good Known Sync s)
include h

theorem Kept.same (hdata : s'.data = s.data)
    (hholders : s'.holders = s.holders) (htoken : s'.token = s.token) :
    Kept Good Known Sync s' := by
  refine ⟨?_, ?_, ?_⟩
  · rw [hdata]
    exact h.good
  · rw [hdata, hholders]
    exact h.known
  · rw [hdata, hholders, htoken]
    exact h.sync

theorem Kept.unlock (o : Owner) : Kept Good Known Sync (s.unlock o) :=
  h.same rfl rfl rfl

/-- A holder that goes, or goes on with a memory that keeps what it has to. -/
theorem Kept.setHolder (hknown : ∀ h₁, h' = some h₁ → Known h₁.mem s.data)
    (hsync : ∀ h₁, h' = some h₁ → s.token = some t → Sync h₁.mem s.data) :
    Kept Good Known Sync (s.setHolder t h') := by
  refine ⟨h.good, ?_, ?_⟩
  · intro u h₁ hu
    rcases setHolder_cases hu with ⟨_, hh⟩ | ⟨_, hu⟩
    · exact hknown h₁ hh
    · exact h.known u h₁ hu
  · intro u h₁ hu htoken
    rcases setHolder_cases hu with ⟨rfl, hh⟩ | ⟨_, hu⟩
    · exact hsync h₁ hh htoken
    · exact h.sync u h₁ hu htoken

/-- A holder that goes on with the same memory. -/
theorem Kept.keepMem {tx tx' : Option (Tx α)} (ht : s.holders t = some ⟨mem, tx⟩) :
    Kept Good Known Sync (s.setHolder t (some ⟨mem, tx'⟩)) := by
  refine h.setHolder ?_ ?_
  · intro h₁ hh
    rw [← some.inj hh]
    exact h.known t ⟨mem, tx⟩ ht
  · intro h₁ hh htoken
    rw [← some.inj hh]
    exact h.sync t ⟨mem, tx⟩ ht htoken

end

theorem Kept.take {i since : Nat} (R : Rules W Good Known Sync undoable)
    (h : Kept Good Known Sync s) : Kept Good Known Sync (s.take W ttl i since) := by
  obtain ⟨hgood, hmono⟩ : Good (if W.status s.data = .queued then W.claimed s.data else s.data) ∧
      ∀ m, Known m s.data →
        Known m (if W.status s.data = .queued then W.claimed s.data else s.data) := by
    split
    · rename_i hq
      exact R.claimed h.good hq
    · exact ⟨h.good, fun _ hm => hm⟩
  refine Kept.unlock ⟨?_, ?_, ?_⟩ _
  · exact hgood
  · intro u h₁ hu
    rcases setHolder_cases hu with ⟨_, hh⟩ | ⟨_, hu⟩
    · rw [← some.inj hh]
      exact (R.fresh hgood).1
    · exact hmono _ (h.known u h₁ hu)
  · -- only the new holder has the new token
    intro u h₁ hu htoken
    rcases setHolder_cases hu with ⟨_, hh⟩ | ⟨hne, _⟩
    · rw [← some.inj hh]
      exact (R.fresh hgood).2
    · exact absurd (some.inj htoken).symm hne

theorem Kept.commitTx (R : Rules W Good Known Sync undoable) (hf : Fenced s)
    (h : Kept Good Known Sync s) (ht : s.holders t = some ⟨mem, some tx⟩)
    (hc : W.commit tx.action mem s.data = some (data, mem')) :
    Kept Good Known Sync (s.commitTx W t tx.action data mem') := by
  have htoken : s.token = some t := hf.own t _ ht rfl
  obtain ⟨hgood, hknown, hsync, hmono⟩ :=
    R.commit h.good (h.known t _ ht) (h.sync t _ ht htoken) hc
  refine Kept.unlock ⟨?_, ?_, ?_⟩ _
  · exact hgood
  · intro u h₁ hu
    rcases setHolder_cases hu with ⟨_, hh⟩ | ⟨_, hu⟩
    · rw [← some.inj hh]
      exact hknown
    · exact hmono _ (h.known u h₁ hu)
  · intro u h₁ hu hrow
    rcases setHolder_cases hu with ⟨_, hh⟩ | ⟨hne, _⟩
    · rw [← some.inj hh]
      exact hsync
    · -- the row carries the committing holder's token, or none
      simp only [setHolder_token] at hrow
      split at hrow
      · cases hrow
      · rw [htoken, some.injEq] at hrow
        exact absurd hrow.symm hne

theorem kept_step (R : Rules W Good Known Sync undoable) (hf : Fenced s)
    (h : Kept Good Known Sync s) (hu : Undone undoable s e) (hs : step W ttl s e = some s') :
    Kept Good Known Sync s' := by
  cases e with
  | tick d | claimEnd i | unlockOther =>
    rw [← some.inj hs]
    exact h.same rfl rfl rfl
  | claimBegin i | claimLock i | renew t since | handBack t since | lockOther =>
    simp only [step, ite_none_right_eq_some, some.injEq] at hs
    rw [← hs.2]
    exact h.same rfl rfl rfl
  | claimTake i =>
    simp only [step] at hs
    split at hs
    · simp only [ite_none_right_eq_some, some.injEq] at hs
      rw [← hs.2]
      exact h.take R
    · cases hs
  | crash t =>
    rw [← some.inj hs]
    refine Kept.unlock (h.setHolder ?_ ?_) _
    · intro h₁ hnone
      cases hnone
    · intro h₁ hnone
      cases hnone
  | act t b =>
    simp only [step] at hs
    split at hs
    · rename_i mem ht
      obtain ⟨⟨d', m'⟩, hact, hr⟩ := map_eq_some_iff.mp hs
      rw [← hr]
      obtain ⟨hgood, hknown, hsync, hmono⟩ := R.act h.good (h.known t _ ht) hact
      refine ⟨hgood, ?_, ?_⟩
      · intro u h₁ hu
        rcases setHolder_cases hu with ⟨_, hh⟩ | ⟨_, hu⟩
        · rw [← some.inj hh]
          exact hknown
        · exact (hmono _).1 (h.known u h₁ hu)
      · intro u h₁ hu htoken
        rcases setHolder_cases hu with ⟨rfl, hh⟩ | ⟨_, hu⟩
        · rw [← some.inj hh]
          exact hsync (h.sync _ _ ht htoken)
        · exact (hmono _).2 (h.sync u h₁ hu htoken)
    · cases hs
  | check t a =>
    simp only [step] at hs
    split at hs
    · rename_i mem ht
      simp only [ite_none_right_eq_some, some.injEq] at hs
      rw [← hs.2]
      exact h.keepMem ht
    · cases hs
  | lock t =>
    simp only [step] at hs
    split at hs
    · rename_i mem tx ht
      simp only [ite_none_right_eq_some, some.injEq] at hs
      rw [← hs.2]
      exact Kept.keepMem (s := { s with lock := some (.holder t) }) (h.same rfl rfl rfl) ht
    · cases hs
  | commit t =>
    simp only [step] at hs
    split at hs
    · rename_i mem tx ht
      simp only [ite_none_right_eq_some] at hs
      obtain ⟨⟨d', m'⟩, hc, hr⟩ := map_eq_some_iff.mp hs.2
      rw [← hr]
      exact h.commitTx R hf ht hc
    · cases hs
  | rollback t =>
    simp only [step] at hs
    split at hs
    · rename_i mem tx ht
      rw [← some.inj hs]
      obtain ⟨hknown, hsync⟩ := R.undo (hu _ ht _ rfl) h.good (h.known t _ ht)
        (h.sync t _ ht (hf.own t _ ht rfl))
      refine Kept.unlock (h.setHolder ?_ ?_) _
      · intro h₁ hh
        rw [← some.inj hh]
        exact hknown
      · intro h₁ hh _
        rw [← some.inj hh]
        exact hsync
    · cases hs
  | outside c =>
    simp only [step, ite_none_right_eq_some] at hs
    obtain ⟨d, hout, hd⟩ := map_eq_some_iff.mp hs.2
    rw [← hd]
    obtain ⟨hgood, hmono⟩ := R.outside h.good hout
    exact ⟨hgood, fun u h₁ hu => (hmono _).1 (h.known u h₁ hu),
      fun u h₁ hu htoken => (hmono _).2 (h.sync u h₁ hu htoken)⟩

/-- **Under exclusive claims what each holder's transactions keep is kept in any interleaving.** -/
theorem kept_reachable (R : Rules W Good Known Sync undoable) (hgood : Good data)
    (hr : Reach (step W ttl) (fun s e => Exclusive s e ∧ Undone undoable s e) { data } s) :
    Kept Good Known Sync s := by
  refine hr.invariant_reached (kept_start hgood) ?_
  intro s e s' hreach h hok hs
  exact kept_step R (fenced_reachable (hreach.mono (fun _ _ hok => hok.1))) h hok.2 hs

end

end Catamorphic.Lease
