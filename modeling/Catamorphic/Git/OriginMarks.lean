import Catamorphic.Git.OriginHistory
import Catamorphic.Lib.Meeting
import Mathlib.Algebra.Order.BigOperators.Group.Finset
import Mathlib.Data.Finset.Card

/-!
# The marks of a comparison

The walk takes the newest commit off the queue and gives its parents the sides it has been seen
from. Its marks are a walk from two tips: each round keeps what such a walk keeps, and a commit
is put on the queue twice at most.
-/

namespace Catamorphic.Git.OriginObjects

open Asks History List Option

/-! ## Sorting by a key -/

section

variable {α : Type} {R : α → α → Prop} {le : α → α → Bool}

theorem pairwise_merge_of (htrans : ∀ a b c, R a b → R b c → R a c)
    (hle : ∀ a b, le a b = true → R a b) (hnot : ∀ a b, le a b = false → R b a) :
    ∀ xs ys : List α, xs.Pairwise R → ys.Pairwise R → (List.merge xs ys le).Pairwise R := by
  intro xs
  induction xs with
  | nil => intro ys _ hys; simpa using hys
  | cons x xs ihx =>
    intro ys
    induction ys with
    | nil => intro hxs _; simpa using hxs
    | cons y ys ihy =>
      intro hxs hys
      obtain ⟨hx, hxs'⟩ := pairwise_cons.mp hxs
      obtain ⟨hy, hys'⟩ := pairwise_cons.mp hys
      cases h : le x y with
      | true =>
        rw [cons_merge_cons, if_pos h]
        refine pairwise_cons.mpr ⟨fun z hz => ?_, ihx (y :: ys) hxs' hys⟩
        rcases mem_merge.mp hz with hz | hz
        · exact hx z hz
        · rcases mem_cons.mp hz with rfl | hz
          · exact hle x z h
          · exact htrans x y z (hle x y h) (hy z hz)
      | false =>
        rw [cons_merge_cons, if_neg (by simp [h])]
        refine pairwise_cons.mpr ⟨fun z hz => ?_, ihy hxs hys'⟩
        rcases mem_merge.mp hz with hz | hz
        · rcases mem_cons.mp hz with rfl | hz
          · exact hnot z y h
          · exact htrans y x z (hnot x y h) (hx z hz)
        · exact hy z hz

/-- A comparison that is wrong about equal elements only sorts by the key. -/
theorem pairwise_mergeSort_of (htrans : ∀ a b c, R a b → R b c → R a c)
    (hle : ∀ a b, le a b = true → R a b) (hnot : ∀ a b, le a b = false → R b a) :
    ∀ xs : List α, (xs.mergeSort le).Pairwise R
  | [] => by simp
  | [a] => by simp
  | a :: b :: xs => by
    rw [List.mergeSort]
    refine pairwise_merge_of htrans hle hnot _ _ ?_ ?_
    · exact pairwise_mergeSort_of htrans hle hnot _
    · exact pairwise_mergeSort_of htrans hle hnot _
termination_by xs => xs.length
decreasing_by
  · simp
    omega
  · simp
    omega

end

/-! ## The commits -/

variable {σ : Type} (objects : Sha → GitObject)

def parentsOf (oid : Sha) : List Sha := (parseCommitText (objects oid).data).parents

def timeOf (oid : Sha) : Nat := (parseCommitText (objects oid).data).author.timestamp

/-- The two commits that are compared. -/
def tipOf (left right : Sha) : Bool → Sha
  | false => left
  | true => right

/-- A finite history without cycles that the origin has the commits of. -/
structure Commits (origin : Origin) (tip : Bool → Sha) : Prop where
  acyclic : Acyclic (parentsOf objects)
  finite : {oid | ∃ side, Reached (parentsOf objects) tip side oid}.Finite
  stored : ∀ side oid, Reached (parentsOf objects) tip side oid → origin.hasObject oid = true
  commit : ∀ side oid, Reached (parentsOf objects) tip side oid → (objects oid).type = .commit

variable {objects} {origin : Origin} {left right : Sha}

theorem runOn_commit {oid : Sha} (hstored : origin.hasObject oid = true)
    (hcommit : (objects oid).type = .commit) (state : σ) : (commit objects oid).runOn origin state =
      (.ok (parseCommitText (objects oid).data), state) := by
  have hsha : isSha oid = true := by
    rw [Origin.hasObject, Bool.and_eq_true] at hstored
    exact hstored.1
  simp [commit, read, runOn_bind, hsha, hstored, hcommit]

/-! ## Marks -/

/-- The flag of a side. -/
def flagFor : Bool → Nat
  | false => LEFT
  | true => RIGHT

/-- The commit has been seen from that side. -/
def Comparing.seen (st : Comparing) (side : Bool) (oid : Sha) : Prop :=
  (st.flagOf oid).testBit side.toNat = true

/-- A mark whose flag is changed where it is of that commit. -/
def Mark.raised (oid : Sha) (next : Nat) (mark : Mark) : Mark :=
  if mark.oid = oid then { mark with flag := next } else mark

variable (objects) in
/-- `push`, of a commit the origin has. -/
def pushed (flag : Nat) (st : Comparing) (oid : Sha) : Comparing :=
  match st.mark oid with
  | some mark =>
    if mark.flag ||| flag = mark.flag then st
    else ⟨st.marks.map (Mark.raised oid (mark.flag ||| flag)), st.queue ++ [oid]⟩
  | none => ⟨st.marks ++ [⟨oid, flag, timeOf objects oid, parentsOf objects oid⟩],
      st.queue ++ [oid]⟩

@[simp] theorem Mark.raised_oid (oid : Sha) (next : Nat) (mark : Mark) :
    (mark.raised oid next).oid = mark.oid := by
  unfold Mark.raised
  split <;> rfl

@[simp] theorem Mark.raised_time (oid : Sha) (next : Nat) (mark : Mark) :
    (mark.raised oid next).time = mark.time := by
  unfold Mark.raised
  split <;> rfl

@[simp] theorem Mark.raised_parents (oid : Sha) (next : Nat) (mark : Mark) :
    (mark.raised oid next).parents = mark.parents := by
  unfold Mark.raised
  split <;> rfl

theorem runOn_push {oid : Sha} (hstored : origin.hasObject oid = true)
    (hcommit : (objects oid).type = .commit) (flag : Nat) (st : Comparing) (state : σ) :
    (push objects flag st oid).runOn origin state = (.ok (pushed objects flag st oid), state) := by
  unfold push pushed
  cases st.mark oid with
  | none =>
    rw [runOn_bind, runOn_commit hstored hcommit]
    rfl
  | some mark =>
    simp only
    split <;> rfl

/-- What the marks are. -/
structure Marked (objects : Sha → GitObject) (st : Comparing) : Prop where
  nodup : (st.marks.map Mark.oid).Nodup
  flags : ∀ mark ∈ st.marks, 0 < mark.flag ∧ mark.flag ≤ BOTH
  times : ∀ mark ∈ st.marks, mark.time = timeOf objects mark.oid
  parents : ∀ mark ∈ st.marks, mark.parents = parentsOf objects mark.oid
  queued : ∀ oid ∈ st.queue, st.mark oid ≠ none

variable {st : Comparing} {flag : Nat} {oid x : Sha} {mark : Mark}

theorem Comparing.oid_of_mark (h : st.mark x = some mark) : mark.oid = x := by
  simpa using List.find?_some h

theorem Comparing.mark_eq_none : st.mark x = none ↔ x ∉ st.marks.map Mark.oid := by
  simp [Comparing.mark]

theorem Comparing.mark_of_mem (hnodup : (st.marks.map Mark.oid).Nodup)
    (h : mark ∈ st.marks) : st.mark mark.oid = some mark := by
  cases hfound : st.mark mark.oid with
  | none => exact absurd (mem_map_of_mem h) (Comparing.mark_eq_none.mp hfound)
  | some other =>
    have hmem : other ∈ st.marks := mem_of_find?_eq_some hfound
    rw [inj_on_of_nodup_map hnodup hmem h (Comparing.oid_of_mark hfound)]

theorem Marked.flagOf_eq_zero (h : Marked objects st) : st.flagOf x = 0 ↔ st.mark x = none := by
  unfold Comparing.flagOf
  cases hmark : st.mark x with
  | none => simp
  | some mark =>
    have := (h.flags mark (mem_of_find?_eq_some hmark)).1
    simp only [elim_some, reduceCtorEq, iff_false]
    omega

theorem Marked.flagOf_le (h : Marked objects st) (x : Sha) : st.flagOf x ≤ BOTH := by
  unfold Comparing.flagOf
  cases hmark : st.mark x with
  | none => exact Nat.zero_le _
  | some mark => exact (h.flags mark (mem_of_find?_eq_some hmark)).2

theorem find?_raised (marks : List Mark) (next : Nat) :
    (marks.map (Mark.raised oid next)).find? (fun mark => mark.oid = x) =
      (marks.find? fun mark => mark.oid = x).map (Mark.raised oid next) := by
  rw [List.find?_map]
  congr 1
  exact congrFun (congrArg List.find? (funext fun mark => by simp)) marks

theorem mark_pushed_of_ne (h : x ≠ oid) : (pushed objects flag st oid).mark x = st.mark x := by
  unfold pushed
  cases st.mark oid with
  | none =>
    have hne : oid ≠ x := Ne.symm h
    simp [Comparing.mark, hne]
  | some mark =>
    by_cases hsame : mark.flag ||| flag = mark.flag
    · simp only [if_pos hsame]
    · simp only [if_neg hsame, Comparing.mark, find?_raised]
      cases hfound : st.marks.find? fun mark => decide (mark.oid = x) with
      | none => rfl
      | some other =>
        have hoid : other.oid = x := by simpa using List.find?_some hfound
        rw [map_some, Mark.raised, if_neg (hoid ▸ h)]

theorem flagOf_pushed_self (st : Comparing) :
    (pushed objects flag st oid).flagOf oid = st.flagOf oid ||| flag := by
  unfold pushed Comparing.flagOf
  cases hmark : st.mark oid with
  | none =>
    rw [Comparing.mark, List.find?_eq_none] at hmark
    simp only [Comparing.mark, List.find?_append]
    rw [List.find?_eq_none.mpr hmark]
    simp
  | some mark =>
    by_cases hsame : mark.flag ||| flag = mark.flag
    · simp only [if_pos hsame]
      rw [hmark, elim_some, hsame]
    · have hoid := Comparing.oid_of_mark hmark
      rw [Comparing.mark] at hmark
      simp only [if_neg hsame, Comparing.mark, find?_raised, hmark, map_some,
        elim_some, Mark.raised, if_pos hoid]

theorem flagOf_pushed (st : Comparing) (x : Sha) : (pushed objects flag st oid).flagOf x =
    if x = oid then st.flagOf oid ||| flag else st.flagOf x := by
  split
  · next h => rw [h, flagOf_pushed_self]
  · next h => rw [Comparing.flagOf, mark_pushed_of_ne h, Comparing.flagOf]

/-- A commit whose flag changes is put on the queue. -/
theorem queue_pushed (hflag : 0 < flag) : (pushed objects flag st oid).queue =
    if st.flagOf oid ||| flag = st.flagOf oid then st.queue else st.queue ++ [oid] := by
  unfold pushed Comparing.flagOf
  cases st.mark oid with
  | none => rw [elim_none, Nat.zero_or, if_neg (by omega)]
  | some mark =>
    by_cases hsame : mark.flag ||| flag = mark.flag
    · rw [elim_some]
      simp only [if_pos hsame]
    · rw [elim_some]
      simp only [if_neg hsame]

theorem or_le_both {f g : Nat} (hf : f ≤ BOTH) (hg : g ≤ BOTH) : f ||| g ≤ BOTH :=
  Nat.le_of_lt_succ (Nat.or_lt_two_pow (n := 2) (Nat.lt_succ_of_le hf) (Nat.lt_succ_of_le hg))

theorem marked_pushed (h : Marked objects st) (hflag : 0 < flag) (hle : flag ≤ BOTH) :
    Marked objects (pushed objects flag st oid) := by
  have hqueued : ∀ x ∈ (pushed objects flag st oid).queue,
      (pushed objects flag st oid).mark x ≠ none := by
    intro x hx
    have hold : x ∈ st.queue ∨ x = oid := by
      rw [queue_pushed hflag] at hx
      split at hx
      · exact .inl hx
      · simpa using hx
    by_cases hx' : x = oid
    · subst hx'
      intro hnone
      have hzero : (pushed objects flag st x).flagOf x = st.flagOf x ||| flag :=
        flagOf_pushed_self st
      rw [Comparing.flagOf, hnone, elim_none] at hzero
      have := @Nat.right_le_or (st.flagOf x) flag
      omega
    · rw [mark_pushed_of_ne hx']
      exact h.queued x (hold.resolve_right hx')
  unfold pushed at hqueued ⊢
  cases hmark : st.mark oid with
  | none =>
    simp only [hmark] at hqueued ⊢
    refine ⟨?_, ?_, ?_, ?_, hqueued⟩
    · rw [map_append, map_singleton]
      exact nodup_append.mpr ⟨h.nodup, nodup_singleton _, by
        rintro a ha b hb rfl
        rw [mem_singleton.mp hb] at ha
        exact Comparing.mark_eq_none.mp hmark ha⟩
    all_goals simp only [forall_mem_append, forall_mem_singleton]
    · exact ⟨h.flags, hflag, hle⟩
    · exact ⟨h.times, trivial⟩
    · exact ⟨h.parents, trivial⟩
  | some found =>
    simp only [hmark] at hqueued ⊢
    by_cases hsame : found.flag ||| flag = found.flag
    · rwa [if_pos hsame]
    · rw [if_neg hsame] at hqueued ⊢
      have hfound := h.flags found (mem_of_find?_eq_some hmark)
      refine ⟨?_, ?_, ?_, ?_, hqueued⟩
      · simpa [Function.comp_def] using h.nodup
      all_goals simp only [List.forall_mem_map]
      · intro mark hmem
        unfold Mark.raised
        split
        · exact ⟨Nat.lt_of_lt_of_le hfound.1 Nat.left_le_or, or_le_both hfound.2 hle⟩
        · exact h.flags mark hmem
      · intro mark hmem
        simpa using h.times mark hmem
      · intro mark hmem
        simpa using h.parents mark hmem

/-! ## Sides -/

theorem exists_bit (hpos : 0 < flag) (hle : flag ≤ BOTH) :
    ∃ side : Bool, flag.testBit side.toNat = true := by
  have hflags : flag = 1 ∨ flag = 2 ∨ flag = 3 := by
    have : BOTH = 3 := rfl
    omega
  rcases hflags with rfl | rfl | rfl
  · exact ⟨false, rfl⟩
  · exact ⟨true, rfl⟩
  · exact ⟨true, rfl⟩

theorem eq_both_iff (hle : flag ≤ BOTH) :
    flag = BOTH ↔ ∀ side : Bool, flag.testBit side.toNat = true := by
  have hflags : flag = 0 ∨ flag = 1 ∨ flag = 2 ∨ flag = 3 := by
    have : BOTH = 3 := rfl
    omega
  rcases hflags with rfl | rfl | rfl | rfl <;> decide

theorem Marked.exists_seen (h : Marked objects st) (hmark : st.mark x ≠ none) :
    ∃ side, st.seen side x := by
  refine exists_bit ?_ (h.flagOf_le x)
  have := mt h.flagOf_eq_zero.mp hmark
  omega

theorem Marked.both_iff (h : Marked objects st) :
    st.flagOf x = BOTH ↔ ∀ side, st.seen side x := eq_both_iff (h.flagOf_le x)

variable {side : Bool}

theorem seen_pushed : (pushed objects flag st oid).seen side x ↔
    st.seen side x ∨ (x = oid ∧ flag.testBit side.toNat = true) := by
  unfold Comparing.seen
  rw [flagOf_pushed]
  split
  · next h => rw [Nat.testBit_or, Bool.or_eq_true, h, eq_self, true_and]
  · next h => simp [h]

theorem subset_queue_pushed (hflag : 0 < flag) (h : x ∈ st.queue) :
    x ∈ (pushed objects flag st oid).queue := by
  rw [queue_pushed hflag]
  split
  · exact h
  · exact mem_append_left _ h

/-- A commit that a side comes to waits. -/
theorem queued_of_pushed (hflag : 0 < flag) (h : (pushed objects flag st oid).seen side x)
    (hnot : ¬ st.seen side x) : x ∈ (pushed objects flag st oid).queue := by
  obtain ⟨rfl, hbit⟩ := (seen_pushed.mp h).resolve_left hnot
  rw [queue_pushed hflag, if_neg]
  · exact mem_append_right _ (mem_singleton_self x)
  · intro hsame
    refine hnot ?_
    unfold Comparing.seen
    rw [← hsame, Nat.testBit_or, hbit, Bool.or_true]

variable {oids : List Sha}

/-! ## Following a commit's parents -/

theorem runOn_foldlM_push
    (hstored : ∀ oid ∈ oids, origin.hasObject oid = true ∧ (objects oid).type = .commit)
    (flag : Nat) (st : Comparing) (state : σ) :
    (oids.foldlM (push objects flag) st).runOn origin state =
      (.ok (oids.foldl (pushed objects flag) st), state) := by
  induction oids generalizing st with
  | nil => rfl
  | cons oid oids ih =>
    obtain ⟨hoid, hcommit⟩ := hstored oid mem_cons_self
    rw [foldlM_cons, runOn_bind, runOn_push hoid hcommit, foldl_cons]
    exact ih (List.forall_mem_cons.mp hstored).2 _

theorem marked_foldl (h : Marked objects st) (hflag : 0 < flag) (hle : flag ≤ BOTH)
    (oids : List Sha) : Marked objects (oids.foldl (pushed objects flag) st) := by
  induction oids generalizing st with
  | nil => exact h
  | cons oid oids ih => exact ih (marked_pushed h hflag hle)

theorem seen_foldl_pushed : (oids.foldl (pushed objects flag) st).seen side x ↔
      st.seen side x ∨ (x ∈ oids ∧ flag.testBit side.toNat = true) := by
  induction oids generalizing st with
  | nil => simp
  | cons oid oids ih =>
    rw [foldl_cons, ih, seen_pushed, mem_cons]
    tauto

theorem subset_queue_foldl (hflag : 0 < flag) (h : x ∈ st.queue) :
    x ∈ (oids.foldl (pushed objects flag) st).queue := by
  induction oids generalizing st with
  | nil => exact h
  | cons oid oids ih => exact ih (subset_queue_pushed hflag h)

theorem queued_of_foldl (hflag : 0 < flag) (h : (oids.foldl (pushed objects flag) st).seen side x)
    (hnot : ¬ st.seen side x) : x ∈ (oids.foldl (pushed objects flag) st).queue := by
  induction oids generalizing st with
  | nil => exact absurd h hnot
  | cons oid oids ih =>
    by_cases hseen : (pushed objects flag st oid).seen side x
    · rw [foldl_cons]
      exact subset_queue_foldl hflag (queued_of_pushed hflag hseen hnot)
    · exact ih h hseen

/-! ## How long the walk is -/

/-- How often a commit may still be put on the queue. -/
def owed (flag : Nat) : Nat := if flag = 0 then 2 else if flag = BOTH then 0 else 1

/-- What waits, and what may still come. -/
noncomputable def work (commits : Finset Sha) (st : Comparing) : Nat :=
  st.queue.length + ∑ oid ∈ commits, owed (st.flagOf oid)

theorem owed_lt {f g : Nat} (hf : f ≤ BOTH) (hg : g ≤ BOTH) (hne : f ||| g ≠ f) :
    owed (f ||| g) < owed f := by
  have hflags : (f = 0 ∨ f = 1 ∨ f = 2 ∨ f = 3) ∧ (g = 0 ∨ g = 1 ∨ g = 2 ∨ g = 3) := by
    have : BOTH = 3 := rfl
    omega
  rcases hflags with ⟨rfl | rfl | rfl | rfl, rfl | rfl | rfl | rfl⟩ <;> revert hne <;> decide

variable {commits : Finset Sha}

theorem work_pushed_le (h : Marked objects st) (hflag : 0 < flag) (hle : flag ≤ BOTH)
    (hmem : oid ∈ commits) : work commits (pushed objects flag st oid) ≤ work commits st := by
  unfold work
  rw [queue_pushed hflag]
  by_cases hsame : st.flagOf oid ||| flag = st.flagOf oid
  · rw [if_pos hsame]
    refine Nat.add_le_add_left (Finset.sum_le_sum fun x _ => ?_) _
    rw [flagOf_pushed]
    split
    · next hx => rw [hsame, hx]
    · exact Nat.le_refl _
  · have hless : ∑ x ∈ commits, owed ((pushed objects flag st oid).flagOf x) <
        ∑ x ∈ commits, owed (st.flagOf x) := by
      refine Finset.sum_lt_sum (fun x _ => ?_) ⟨oid, hmem, ?_⟩
      · rw [flagOf_pushed]
        split
        · next hx =>
            rw [hx]
            exact Nat.le_of_lt (owed_lt (h.flagOf_le oid) hle hsame)
        · exact Nat.le_refl _
      · rw [flagOf_pushed_self]
        exact owed_lt (h.flagOf_le oid) hle hsame
    rw [if_neg hsame, length_append, length_singleton]
    omega

theorem work_foldl_le (h : Marked objects st) (hflag : 0 < flag) (hle : flag ≤ BOTH)
    (hmem : ∀ oid ∈ oids, oid ∈ commits) :
    work commits (oids.foldl (pushed objects flag) st) ≤ work commits st := by
  induction oids generalizing st with
  | nil => exact Nat.le_refl _
  | cons oid oids ih =>
    refine Nat.le_trans (ih (marked_pushed h hflag hle) (List.forall_mem_cons.mp hmem).2) ?_
    exact work_pushed_le h hflag hle (hmem oid mem_cons_self)

/-! ## The walk -/

/-- `queue.sort(…)` and `queue.pop()`: the newest comes up, the others stay. -/
theorem newest_of_getLast {key : Sha → Nat} {queue : List Sha}
    (hlast : (queue.mergeSort fun a b => key a ≤ key b).getLast? = some oid) :
    oid ∈ queue ∧ (∀ w ∈ queue, key w ≤ key oid) ∧
      (queue.mergeSort fun a b => key a ≤ key b).dropLast.length + 1 = queue.length ∧
      (∀ w ∈ (queue.mergeSort fun a b => key a ≤ key b).dropLast, w ∈ queue) ∧
      ∀ w ∈ queue, w ≠ oid → w ∈ (queue.mergeSort fun a b => key a ≤ key b).dropLast := by
  have hsorted : (queue.mergeSort fun a b => decide (key a ≤ key b)).Pairwise
      fun a b => key a ≤ key b :=
    pairwise_mergeSort_of (R := fun a b => key a ≤ key b)
      (fun _ _ _ => Nat.le_trans) (fun a b => of_decide_eq_true)
      (fun a b h => Nat.le_of_not_le (of_decide_eq_false h)) queue
  have hmem : ∀ w, w ∈ queue.mergeSort (fun a b => decide (key a ≤ key b)) ↔ w ∈ queue :=
    fun w => mem_mergeSort
  have hlength : (queue.mergeSort fun a b => decide (key a ≤ key b)).length = queue.length :=
    length_mergeSort queue
  obtain ⟨rest, hrest⟩ := List.getLast?_eq_some_iff.mp hlast
  rw [hrest] at hsorted hmem hlength ⊢
  rw [dropLast_concat]
  have hbelow : ∀ w ∈ rest, key w ≤ key oid := fun w hw =>
    (pairwise_append.mp hsorted).2.2 w hw oid (mem_singleton_self oid)
  refine ⟨(hmem oid).mp (by simp), fun w hw => ?_, by simpa using hlength,
    fun w hw => (hmem w).mp (mem_append_left _ hw), fun w hw hne => ?_⟩
  · rcases mem_append.mp ((hmem w).mpr hw) with hw | hw
    · exact hbelow w hw
    · rw [mem_singleton.mp hw]
  · rcases mem_append.mp ((hmem w).mpr hw) with hw | hw
    · exact hw
    · exact absurd (mem_singleton.mp hw) hne

/-- The marks as a walk from the two commits. -/
abbrev WalkedFrom (objects : Sha → GitObject) (tip : Bool → Sha) (st : Comparing) : Prop :=
  History.Walked (parentsOf objects) tip st.seen (· ∈ st.queue)

/-- `queue.pop()`, of the sorted queue. -/
def Comparing.popped (st : Comparing) : Comparing :=
  { st with queue := (st.queue.mergeSort fun a b => st.timeOf a ≤ st.timeOf b).dropLast }

/-- One round: the commit `oid` is taken off the queue, and its parents get its flag. -/
def followed (objects : Sha → GitObject) (st : Comparing) (oid : Sha) : Comparing :=
  (st.parentsOf oid).foldl (pushed objects (st.flagOf oid)) st.popped

variable {tip : Bool → Sha}

theorem Marked.timeOf_eq (h : Marked objects st) (hmark : st.mark x ≠ none) :
    st.timeOf x = timeOf objects x := by
  obtain ⟨mark, hmark⟩ := ne_none_iff_exists'.mp hmark
  rw [Comparing.timeOf, hmark, elim_some, h.times mark (mem_of_find?_eq_some hmark),
    Comparing.oid_of_mark hmark]

theorem Marked.parentsOf_eq (h : Marked objects st) (hmark : st.mark x ≠ none) :
    st.parentsOf x = parentsOf objects x := by
  obtain ⟨mark, hmark⟩ := ne_none_iff_exists'.mp hmark
  rw [Comparing.parentsOf, hmark, elim_some,
    h.parents mark (mem_of_find?_eq_some hmark), Comparing.oid_of_mark hmark]

section

variable (hcommits : Commits objects origin tip) (hmarked : Marked objects st)
  (hwalked : WalkedFrom objects tip st)
  (hlast : (st.queue.mergeSort fun a b => st.timeOf a ≤ st.timeOf b).getLast? = some oid)

include hmarked hwalked hlast

theorem reached_of_last : ∃ side, st.seen side oid ∧ Reached (parentsOf objects) tip side oid := by
  obtain ⟨side, hseen⟩ := hmarked.exists_seen (hmarked.queued oid (newest_of_getLast hlast).1)
  exact ⟨side, hseen, hwalked.sound side oid hseen⟩

include hcommits in
theorem stored_of_last : ∀ parent ∈ st.parentsOf oid,
    origin.hasObject parent = true ∧ (objects parent).type = .commit := by
  intro parent hparent
  rw [hmarked.parentsOf_eq (hmarked.queued oid (newest_of_getLast hlast).1)] at hparent
  obtain ⟨side, _, hreached⟩ := reached_of_last hmarked hwalked hlast
  exact ⟨hcommits.stored side parent (hreached.parent hparent),
    hcommits.commit side parent (hreached.parent hparent)⟩

omit hwalked in
theorem marked_popped : Marked objects st.popped :=
  ⟨hmarked.nodup, hmarked.flags, hmarked.times, hmarked.parents,
    fun w hw => hmarked.queued w ((newest_of_getLast hlast).2.2.2.1 w hw)⟩

omit hwalked in
theorem flagOf_last : 0 < st.flagOf oid := by
  have := mt hmarked.flagOf_eq_zero.mp (hmarked.queued oid (newest_of_getLast hlast).1)
  omega

omit hwalked in
theorem marked_followed : Marked objects (followed objects st oid) :=
  marked_foldl (marked_popped hmarked hlast) (flagOf_last hmarked hlast) (hmarked.flagOf_le oid) _

/-- **A round keeps what the walk keeps.** -/
theorem walked_followed (hentries : OlderEntries (parentsOf objects) tip (timeOf objects)) :
    WalkedFrom objects tip (followed objects st oid) := by
  obtain ⟨hqueued, hnewest, -, -, hstay⟩ := newest_of_getLast hlast
  have hmark := hmarked.queued oid hqueued
  have hflag := flagOf_last hmarked hlast
  refine hwalked.step (v := oid) hentries ?_ ?_ ?_ ?_
  · intro w hw
    rw [← hmarked.timeOf_eq hmark, ← hmarked.timeOf_eq (hmarked.queued w hw)]
    exact hnewest w hw
  · intro side w
    rw [← hmarked.parentsOf_eq hmark]
    exact seen_foldl_pushed
  · exact fun w hw hne => subset_queue_foldl hflag (hstay w hw hne)
  · exact fun side w => queued_of_foldl hflag

include hcommits in
theorem work_followed : work hcommits.finite.toFinset (followed objects st oid) <
    work hcommits.finite.toFinset st := by
  obtain ⟨hqueued, -, hlength, -, -⟩ := newest_of_getLast hlast
  have hmark := hmarked.queued oid hqueued
  obtain ⟨side, _, hreached⟩ := reached_of_last hmarked hwalked hlast
  refine Nat.lt_of_le_of_lt (work_foldl_le (marked_popped hmarked hlast)
    (flagOf_last hmarked hlast) (hmarked.flagOf_le oid) fun w hw => ?_) ?_
  · rw [hmarked.parentsOf_eq hmark] at hw
    exact hcommits.finite.mem_toFinset.mpr ⟨side, hreached.parent hw⟩
  · refine Nat.add_lt_add_right ?_ _
    show (st.queue.mergeSort fun a b => st.timeOf a ≤ st.timeOf b).dropLast.length < _
    omega

end

/-- How a comparison may end: too far apart, or with a walk that is at its end. -/
theorem runOn_comparing (hcommits : Commits objects origin tip)
    (hentries : OlderEntries (parentsOf objects) tip (timeOf objects))
    (hmarked : Marked objects st) (hwalked : WalkedFrom objects tip st) (steps : Nat) (state : σ) :
    (∃ st', (comparing objects steps st).runOn origin state = (.ok st', state) ∧
      Marked objects st' ∧ WalkedFrom objects tip st' ∧ ∀ oid ∈ st'.queue, st'.flagOf oid = BOTH) ∨
    ((comparing objects steps st).runOn origin state = (.error .tooFarApart, state) ∧
      steps < work hcommits.finite.toFinset st) := by
  induction steps generalizing st with
  | zero =>
    unfold comparing
    split
    · next hany =>
        right
        refine ⟨rfl, ?_⟩
        obtain ⟨oid, hoid, -⟩ := any_eq_true.mp hany
        have := length_pos_of_mem hoid
        unfold work
        omega
    · next hany =>
        exact .inl ⟨st, rfl, hmarked, hwalked, fun oid hoid => by
          by_contra hne
          exact hany (any_eq_true.mpr ⟨oid, hoid, by simpa using hne⟩)⟩
  | succ steps ih =>
    unfold comparing
    split
    · next hany =>
        obtain ⟨some', hsome, -⟩ := any_eq_true.mp hany
        cases hlast : (st.queue.mergeSort fun a b => st.timeOf a ≤ st.timeOf b).getLast? with
        | none =>
          rw [List.getLast?_eq_none_iff] at hlast
          have : some' ∈ st.queue.mergeSort fun a b => st.timeOf a ≤ st.timeOf b :=
            mem_mergeSort.mpr hsome
          rw [hlast] at this
          cases this
        | some oid =>
          have hless := work_followed hcommits hmarked hwalked hlast
          simp only [hlast]
          rw [runOn_bind, runOn_foldlM_push (stored_of_last hcommits hmarked hwalked hlast)]
          rcases ih (marked_followed hmarked hlast)
            (walked_followed hmarked hwalked hlast hentries) with h | ⟨hrun, hsteps⟩
          · exact .inl h
          · exact .inr ⟨hrun, by omega⟩
    · next hany =>
        exact .inl ⟨st, rfl, hmarked, hwalked, fun oid hoid => by
          by_contra hne
          exact hany (any_eq_true.mpr ⟨oid, hoid, by simpa using hne⟩)⟩

end Catamorphic.Git.OriginObjects
