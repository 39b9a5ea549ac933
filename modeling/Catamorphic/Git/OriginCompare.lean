import Catamorphic.Git.OriginMarks

/-!
# What comparing two commits finds

A commit that is taken before the other side has come to it passes one side on, and nothing
makes the walk go on until the other one follows: what lies beneath it may stay counted for one
side. Where the shared history is entered at commits older than those on the way to them, that
does not happen, and the comparison is exact.
-/

namespace Catamorphic.Git.OriginObjects

open Asks History List

variable {σ : Type} {objects : Sha → GitObject} {origin : Origin} {left right : Sha}
variable {st : Comparing} {flag : Nat} {oid x : Sha} {tip : Bool → Sha} {rounds : Nat} {side : Bool}
  {marks : List Mark} {P : Sha → Prop}

/-! ## What lies beneath -/

/-- What `beneathFrom` finds has what the stack has, where parents inherit it. -/
theorem forall_beneathFrom (hparents : ∀ w, P w → ∀ parent ∈ st.parentsOf w, P parent)
    {stack beneath : List Sha} (hstack : ∀ w ∈ stack, P w) (hbeneath : ∀ w ∈ beneath, P w) :
    ∀ w ∈ beneathFrom st rounds stack beneath, P w := by
  induction rounds generalizing stack beneath with
  | zero => exact hbeneath
  | succ rounds ih =>
    cases stack with
    | nil => exact hbeneath
    | cons ancestor stack =>
      obtain ⟨hancestor, hstack⟩ := forall_mem_cons.mp hstack
      rw [beneathFrom]
      split
      · exact ih hstack hbeneath
      · refine ih (forall_mem_append.mpr ⟨?_, hstack⟩) (forall_mem_append.mpr
          ⟨hbeneath, forall_mem_singleton.mpr hancestor⟩)
        exact fun w hw => hparents ancestor hancestor w (mem_reverse.mp hw)

theorem subset_beneathFrom {stack beneath : List Sha} (h : x ∈ beneath) :
    x ∈ beneathFrom st rounds stack beneath := by
  induction rounds generalizing stack beneath with
  | zero => exact h
  | succ rounds ih =>
    cases stack with
    | nil => exact h
    | cons ancestor stack =>
      rw [beneathFrom]
      split
      · exact ih h
      · exact ih (mem_append_left _ h)

/-- The parents still to be put on the stack. -/
def toFollow (marks : List Mark) (beneath : List Sha) : Nat :=
  ((marks.filter fun mark => mark.oid ∉ beneath).map fun mark => mark.parents.length).sum

theorem toFollow_cons (mark : Mark) (marks : List Mark) (beneath : List Sha) :
    toFollow (mark :: marks) beneath =
      (if mark.oid ∈ beneath then 0 else mark.parents.length) + toFollow marks beneath := by
  unfold toFollow
  by_cases h : mark.oid ∈ beneath <;> simp [h]

theorem toFollow_append_of_not_mem (h : x ∉ marks.map Mark.oid)
    (beneath : List Sha) : toFollow marks (beneath ++ [x]) = toFollow marks beneath := by
  induction marks with
  | nil => rfl
  | cons mark marks ih =>
    rw [map_cons, mem_cons, not_or] at h
    rw [toFollow_cons, toFollow_cons, ih h.2]
    simp [Ne.symm h.1]

/-- A commit that is put beneath has its parents put on the stack. -/
theorem toFollow_append (hnodup : (marks.map Mark.oid).Nodup) {mark : Mark}
    (hmem : mark ∈ marks) {beneath : List Sha} (hnot : mark.oid ∉ beneath) :
    toFollow marks (beneath ++ [mark.oid]) + mark.parents.length = toFollow marks beneath := by
  induction marks with
  | nil => cases hmem
  | cons other marks ih =>
    rw [map_cons, nodup_cons] at hnodup
    rw [toFollow_cons, toFollow_cons]
    rcases mem_cons.mp hmem with rfl | hmem
    · rw [toFollow_append_of_not_mem hnodup.1, if_pos (by simp), if_neg hnot]
      omega
    · have hne : other.oid ≠ mark.oid := fun heq =>
        hnodup.1 (heq ▸ mem_map_of_mem hmem)
      have := ih hnodup.2 hmem
      simp only [mem_append, mem_singleton, hne, or_false]
      omega

/-- **With rounds enough, every marked commit on the stack is found.** -/
theorem mem_beneathFrom (h : Marked objects st) {stack beneath : List Sha}
    (hrounds : stack.length + toFollow st.marks beneath ≤ rounds) (hmem : x ∈ stack)
    (hne : x ≠ []) (hmark : st.mark x ≠ none) : x ∈ beneathFrom st rounds stack beneath := by
  induction rounds generalizing stack beneath with
  | zero =>
    have := length_pos_of_mem hmem
    omega
  | succ rounds ih =>
    cases stack with
    | nil => cases hmem
    | cons ancestor stack =>
      rw [length_cons] at hrounds
      rw [beneathFrom]
      split
      · next hskip =>
          rcases mem_cons.mp hmem with rfl | hmem
          · exact subset_beneathFrom ((hskip.resolve_left hne).resolve_right hmark)
          · exact ih (by omega) hmem
      · next hfollow =>
          push Not at hfollow
          obtain ⟨-, hnot, hsome⟩ := hfollow
          obtain ⟨mark, hmark'⟩ := Option.ne_none_iff_exists'.mp hsome
          have hoid := Comparing.oid_of_mark hmark'
          have hnot' : mark.oid ∉ beneath := hoid ▸ hnot
          have hwork := toFollow_append h.nodup (mem_of_find?_eq_some hmark') hnot'
          rw [hoid] at hwork
          have hlen : (st.parentsOf ancestor).length = mark.parents.length := by
            rw [Comparing.parentsOf, hmark', Option.elim_some]
          rcases mem_cons.mp hmem with rfl | hmem
          · exact subset_beneathFrom (mem_append_right _ (mem_singleton_self x))
          · refine ih ?_ (mem_append_right _ hmem)
            rw [length_append, length_reverse]
            omega

/-! ## What is counted -/

theorem Marked.mem_common (h : Marked objects st) :
    x ∈ (st.marks.filter fun mark => mark.flag = flag).map Mark.oid ↔
      st.mark x ≠ none ∧ st.flagOf x = flag := by
  rw [mem_map]
  constructor
  · rintro ⟨mark, hmem, rfl⟩
    obtain ⟨hmem, hflag⟩ := mem_filter.mp hmem
    rw [Comparing.flagOf, Comparing.mark_of_mem h.nodup hmem]
    exact ⟨Option.some_ne_none mark, of_decide_eq_true hflag⟩
  · rintro ⟨hmark, hflag⟩
    obtain ⟨mark, hmark⟩ := Option.ne_none_iff_exists'.mp hmark
    rw [Comparing.flagOf, hmark, Option.elim_some] at hflag
    exact ⟨mark, mem_filter.mpr ⟨mem_of_find?_eq_some hmark, decide_eq_true hflag⟩,
      Comparing.oid_of_mark hmark⟩

theorem mark_of_seen (h : st.seen side x) : st.mark x ≠ none := by
  intro hnone
  unfold Comparing.seen Comparing.flagOf at h
  rw [hnone, Option.elim_none, Nat.zero_testBit] at h
  cases h

/-- The marks with a flag are as many as the commits with it. -/
theorem Marked.count (h : Marked objects st) {commits : Set Sha}
    (hcommits : ∀ x, x ∈ commits ↔ st.mark x ≠ none ∧ st.flagOf x = flag) :
    (st.marks.filter fun mark => mark.flag = flag).length = commits.ncard := by
  have hset : commits = ((st.marks.filter fun mark => mark.flag = flag).map Mark.oid).toFinset := by
    ext x
    rw [hcommits, coe_toFinset, Set.mem_ofPred_eq, h.mem_common]
  have hnodup : ((st.marks.filter fun mark => mark.flag = flag).map Mark.oid).Nodup :=
    h.nodup.sublist (filter_sublist.map Mark.oid)
  rw [hset, Set.ncard_coe_finset, toFinset_card_of_nodup hnodup, length_map]

section

variable (hcommits : Commits objects origin tip) (hmarked : Marked objects st)
  (hwalked : WalkedFrom objects tip st) (hend : ∀ oid ∈ st.queue, st.flagOf oid = BOTH)

include hmarked hend in
theorem both_of_queued : ∀ oid, oid ∈ st.queue → ∀ side, st.seen side oid := fun oid hoid =>
  hmarked.both_iff.mp (hend oid hoid)

include hmarked hwalked hend in
/-- A marked commit is shared exactly where it has both flags. -/
theorem both_iff_shared (hmark : st.mark x ≠ none) :
    st.flagOf x = BOTH ↔ Shared (parentsOf objects) tip x := by
  rw [hmarked.both_iff]
  constructor
  · exact fun h side => hwalked.sound side x (h side)
  · intro hshared
    obtain ⟨side, hseen⟩ := hmarked.exists_seen hmark
    exact hwalked.both (both_of_queued hmarked hend) hshared hseen

include hcommits hmarked hwalked hend in
/-- **One side's flag alone is on the commits that this side alone reaches.** -/
theorem flag_iff_alone (side : Bool) : st.mark x ≠ none ∧ st.flagOf x = flagFor side ↔
    Reached (parentsOf objects) tip side x ∧ ¬ Reached (parentsOf objects) tip (!side) x := by
  have hshared_iff : Shared (parentsOf objects) tip x ↔
      Reached (parentsOf objects) tip side x ∧ Reached (parentsOf objects) tip (!side) x := by
    cases side <;> simp [Shared, and_comm]
  have hflag_iff : ∀ flag, 0 < flag → flag ≤ BOTH → (flag = flagFor side ↔
      flag.testBit side.toNat = true ∧ flag ≠ BOTH) := by
    intro flag hpos hle
    have hflags : flag = 1 ∨ flag = 2 ∨ flag = 3 := by
      have : BOTH = 3 := rfl
      omega
    rcases hflags with rfl | rfl | rfl <;> cases side <;> decide
  constructor
  · rintro ⟨hmark, hflag⟩
    have hpos : 0 < st.flagOf x := by
      have := mt hmarked.flagOf_eq_zero.mp hmark
      omega
    obtain ⟨hseen, hne⟩ := (hflag_iff _ hpos (hmarked.flagOf_le x)).mp hflag
    have hreached := hwalked.sound side x hseen
    refine ⟨hreached, fun hother => hne ?_⟩
    exact (both_iff_shared hmarked hwalked hend hmark).mpr (hshared_iff.mpr ⟨hreached, hother⟩)
  · rintro ⟨hreached, hother⟩
    have hshared : ¬ Shared (parentsOf objects) tip x := fun h => hother (hshared_iff.mp h).2
    have hseen := hwalked.seen_of_not_shared hcommits.acyclic (both_of_queued hmarked hend)
      hreached hshared
    have hmark := mark_of_seen hseen
    have hpos : 0 < st.flagOf x := by
      have := mt hmarked.flagOf_eq_zero.mp hmark
      omega
    refine ⟨hmark, (hflag_iff _ hpos (hmarked.flagOf_le x)).mpr ⟨hseen, fun hboth => ?_⟩⟩
    exact hshared ((both_iff_shared hmarked hwalked hend hmark).mp hboth)

end

/-! ## The best common commit -/

/-- The commits both sides have, of the marks. -/
def Comparing.common (st : Comparing) : List Sha :=
  (st.marks.filter fun mark => mark.flag = BOTH).map Mark.oid

def Comparing.edges (st : Comparing) : Nat := (st.marks.map fun mark => mark.parents.length).sum

def Comparing.beneath (st : Comparing) (oids : List Sha) (beneath : List Sha) : List Sha :=
  oids.foldl (fun beneath oid =>
    beneathFrom st (2 * st.edges + 1) (st.parentsOf oid).reverse beneath) beneath

theorem subset_beneath {oids beneath : List Sha} (h : x ∈ beneath) :
    x ∈ st.beneath oids beneath := by
  induction oids generalizing beneath with
  | nil => exact h
  | cons oid oids ih => exact ih (subset_beneathFrom h)

theorem forall_beneath (hparents : ∀ w, P w → ∀ parent ∈ st.parentsOf w, P parent)
    {oids beneath : List Sha} (hoids : ∀ oid ∈ oids, ∀ parent ∈ st.parentsOf oid, P parent)
    (hbeneath : ∀ w ∈ beneath, P w) : ∀ w ∈ st.beneath oids beneath, P w := by
  induction oids generalizing beneath with
  | nil => exact hbeneath
  | cons oid oids ih =>
    obtain ⟨hoid, hoids⟩ := forall_mem_cons.mp hoids
    refine ih hoids (forall_beneathFrom hparents ?_ hbeneath)
    exact fun w hw => hoid w (mem_reverse.mp hw)

theorem toFollow_le_edges (beneath : List Sha) : toFollow st.marks beneath ≤ st.edges :=
  (filter_sublist.map _).sum_le_sum fun _ _ => Nat.zero_le _

theorem length_parents_le (oid : Sha) : (st.parentsOf oid).length ≤ st.edges := by
  unfold Comparing.parentsOf Comparing.edges
  cases hmark : st.mark oid with
  | none => exact Nat.zero_le _
  | some mark =>
    exact single_le_sum (fun _ _ => Nat.zero_le _) _
      (mem_map_of_mem (mem_of_find?_eq_some hmark))

/-- The marked parents of the common commits lie beneath. -/
theorem mem_beneath (h : Marked objects st) {oids beneath : List Sha} (hmem : oid ∈ oids)
    (hparent : x ∈ st.parentsOf oid) (hne : x ≠ []) (hmark : st.mark x ≠ none) :
    x ∈ st.beneath oids beneath := by
  induction oids generalizing beneath with
  | nil => cases hmem
  | cons other oids ih =>
    rcases mem_cons.mp hmem with rfl | hmem
    · have hparents : (st.parentsOf oid).length ≤ st.edges := length_parents_le oid
      have hfollow : toFollow st.marks beneath ≤ st.edges := toFollow_le_edges beneath
      have hfound : x ∈ beneathFrom st (2 * st.edges + 1) (st.parentsOf oid).reverse beneath := by
        refine mem_beneathFrom h ?_ (mem_reverse.mpr hparent) hne hmark
        rw [length_reverse]
        omega
      show x ∈ st.beneath oids
        (beneathFrom st (2 * st.edges + 1) (st.parentsOf oid).reverse beneath)
      exact subset_beneath hfound
    · exact ih hmem

/-- The best common commits, the newest first. -/
def Comparing.best (st : Comparing) : List Sha :=
  (st.common.filter fun oid => oid ∉ st.beneath st.common []).mergeSort fun a b =>
    st.timeOf b < st.timeOf a || (st.timeOf b = st.timeOf a && a < b)

theorem base_compared (st : Comparing) : st.compared.base = st.best.head? := rfl

theorem mem_best : x ∈ st.best ↔ x ∈ st.common ∧ x ∉ st.beneath st.common [] := by
  rw [Comparing.best, mem_mergeSort, mem_filter, decide_eq_true_iff]

/-- The first one is as new as any. -/
theorem timeOf_le_head (hhead : st.best.head? = some oid) (h : x ∈ st.best) :
    st.timeOf x ≤ st.timeOf oid := by
  have hsorted : st.best.Pairwise fun a b => st.timeOf b ≤ st.timeOf a := by
    refine pairwise_mergeSort_of (R := fun a b => st.timeOf b ≤ st.timeOf a)
      (fun _ _ _ hab hbc => Nat.le_trans hbc hab) ?_ ?_ _
    · intro a b hle
      simp only [Bool.or_eq_true, Bool.and_eq_true, decide_eq_true_iff] at hle
      omega
    · intro a b hle
      simp only [Bool.or_eq_false_iff, decide_eq_false_iff_not] at hle
      omega
  obtain ⟨rest, hrest⟩ := List.head?_eq_some_iff.mp hhead
  rw [hrest] at hsorted h
  rcases mem_cons.mp h with rfl | h
  · exact Nat.le_refl _
  · exact (pairwise_cons.mp hsorted).1 x h

/-- When the commits' dates let a comparison find what it looks for. -/
structure Timely (objects : Sha → GitObject) (tip : Bool → Sha) : Prop where
  /-- From either commit, every entry of the shared history is reached over newer commits. -/
  entries : OlderEntries (parentsOf objects) tip (timeOf objects)
  /-- An entry beneath another common commit is older than a best one. -/
  beneath : ∀ oid, Entry (parentsOf objects) tip oid → ¬ Best (parentsOf objects) tip oid →
    ∃ best, Best (parentsOf objects) tip best ∧ timeOf objects oid < timeOf objects best

section

variable (hcommits : Commits objects origin tip) (hmarked : Marked objects st)
  (hwalked : WalkedFrom objects tip st) (hend : ∀ oid ∈ st.queue, st.flagOf oid = BOTH)

include hmarked hwalked hend

theorem shared_of_common (h : x ∈ st.common) : Shared (parentsOf objects) tip x := by
  obtain ⟨hmark, hflag⟩ := hmarked.mem_common.mp h
  exact (both_iff_shared hmarked hwalked hend hmark).mp hflag

include hcommits in
/-- **Every best common commit is among those found.** -/
theorem mem_best_of_best (hbest : Best (parentsOf objects) tip x) : x ∈ st.best := by
  have hseen := hwalked.seen_of_best hcommits.acyclic (both_of_queued hmarked hend) hbest
  have hmark := mark_of_seen (hseen false)
  refine mem_best.mpr ⟨hmarked.mem_common.mpr ⟨hmark, hmarked.both_iff.mpr hseen⟩, fun hmem => ?_⟩
  have hparents : ∀ w, ∀ parent ∈ st.parentsOf w, parent ∈ parentsOf objects w := by
    intro w parent hparent
    by_cases hw : st.mark w = none
    · rw [Comparing.parentsOf, hw] at hparent
      cases hparent
    · rwa [hmarked.parentsOf_eq hw] at hparent
  -- what lies beneath stands before a parent of a common commit
  obtain ⟨common, hcommon, parent, hparent, hbefore⟩ :=
    forall_beneath (P := fun w => ∃ common, Shared (parentsOf objects) tip common ∧
        ∃ parent ∈ parentsOf objects common, Before (parentsOf objects) w parent)
      (fun w hw next hnext => by
        obtain ⟨common, hcommon, parent, hparent, hbefore⟩ := hw
        exact ⟨common, hcommon, parent, hparent,
          (Before.of_parent (hparents w next hnext)).trans hbefore⟩)
      (fun oid hoid parent hparent =>
        ⟨oid, shared_of_common hmarked hwalked hend hoid, parent,
          hparents oid parent hparent, .refl parent⟩)
      (fun w hw => absurd hw not_mem_nil) x hmem
  have heq := hbest.2 common hcommon (hbefore.trans (.of_parent hparent))
  subst heq
  exact hcommits.acyclic common parent hparent hbefore

include hcommits in
/-- **The first of those found is a best common commit.** -/
theorem best_of_head (htimely : Timely objects tip) (hhead : st.best.head? = some oid) :
    Best (parentsOf objects) tip oid := by
  obtain ⟨hcommon, hbeneath⟩ := mem_best.mp (mem_of_head? hhead)
  have hshared := shared_of_common hmarked hwalked hend hcommon
  obtain ⟨hmark, hflag⟩ := hmarked.mem_common.mp hcommon
  have hseen := hmarked.both_iff.mp hflag
  rcases hwalked.entered oid hshared false (hseen false) with hentry | ⟨_, child, hchild, hparent⟩
  · by_contra hnot
    obtain ⟨best, hbest, hnewer⟩ := htimely.beneath oid hentry hnot
    have hmem := mem_best_of_best hcommits hmarked hwalked hend hbest
    have hbestmark := (hmarked.mem_common.mp (mem_best.mp hmem).1).1
    have hle := timeOf_le_head hhead hmem
    rw [hmarked.timeOf_eq hmark, hmarked.timeOf_eq hbestmark] at hle
    omega
  · have hchildmark := mark_of_seen (hchild false)
    have hchildcommon : child ∈ st.common :=
      hmarked.mem_common.mpr ⟨hchildmark, hmarked.both_iff.mpr hchild⟩
    refine absurd (mem_beneath hmarked hchildcommon ?_ ?_ hmark) hbeneath
    · rwa [hmarked.parentsOf_eq hchildmark]
    · rintro rfl
      have hstored := hcommits.stored false [] (hshared false)
      rw [Origin.hasObject, show isSha [] = false by decide] at hstored
      cases hstored

end

/-! ## Comparing -/

/-- What a comparison is to find: a common commit before no other one, and how many commits
one side has that the other lacks. -/
structure Exact (objects : Sha → GitObject) (tip : Bool → Sha) (found : Compared) : Prop where
  base : ∀ oid, found.base = some oid → Best (parentsOf objects) tip oid
  none : found.base = none ↔ ∀ oid, ¬ Shared (parentsOf objects) tip oid
  ahead : found.ahead = {oid | Reached (parentsOf objects) tip false oid ∧
    ¬ Reached (parentsOf objects) tip true oid}.ncard
  behind : found.behind = {oid | Reached (parentsOf objects) tip true oid ∧
    ¬ Reached (parentsOf objects) tip false oid}.ncard

theorem exact_compared (hcommits : Commits objects origin tip) (htimely : Timely objects tip)
    (hmarked : Marked objects st) (hwalked : WalkedFrom objects tip st)
    (hend : ∀ oid ∈ st.queue, st.flagOf oid = BOTH) : Exact objects tip st.compared := by
  refine ⟨fun oid hbase => ?_, ?_, ?_, ?_⟩
  · exact best_of_head hcommits hmarked hwalked hend htimely hbase
  · rw [base_compared, List.head?_eq_none_iff, eq_nil_iff_forall_not_mem]
    constructor
    · intro hempty oid hshared
      have hfinite := hcommits.finite.subset fun x (hx : Reached _ tip true x) => ⟨true, hx⟩
      obtain ⟨best, hbest, -⟩ := hshared.exists_best hcommits.acyclic hfinite
      exact hempty best (mem_best_of_best hcommits hmarked hwalked hend hbest)
    · intro hnone oid hmem
      exact hnone oid (shared_of_common hmarked hwalked hend (mem_best.mp hmem).1)
  · exact hmarked.count fun x => (flag_iff_alone hcommits hmarked hwalked hend false).symm
  · exact hmarked.count fun x => (flag_iff_alone hcommits hmarked hwalked hend true).symm

theorem exact_same (hacyclic : Acyclic (parentsOf objects)) :
    Exact objects (tipOf left left) ⟨some left, 0, 0⟩ := by
  have htip : ∀ side, tipOf left left side = left := by
    intro side
    cases side <;> rfl
  have hshared : Shared (parentsOf objects) (tipOf left left) left := fun side => by
    rw [Reached, htip]
    exact .refl left
  have hempty : ∀ side other, {oid | Reached (parentsOf objects) (tipOf left left) side oid ∧
      ¬ Reached (parentsOf objects) (tipOf left left) other oid} = ∅ := by
    intro side other
    refine Set.eq_empty_of_forall_notMem fun oid ⟨hreached, hnot⟩ => hnot ?_
    rw [Reached, htip] at hreached ⊢
    exact hreached
  refine ⟨?_, ?_, ?_, ?_⟩
  · rintro oid ⟨⟩
    refine ⟨hshared, fun w hw hbefore => ?_⟩
    exact (Before.antisymm hacyclic hbefore (htip false ▸ hw false)).symm
  · exact ⟨nofun, fun h => absurd hshared (h left)⟩
  · rw [hempty, Set.ncard_empty]
  · rw [hempty, Set.ncard_empty]

/-- The state after the two commits have been pushed. -/
def started (objects : Sha → GitObject) (left right : Sha) : Comparing :=
  pushed objects RIGHT (pushed objects LEFT ⟨[], []⟩ left) right

theorem marked_empty : Marked objects ⟨[], []⟩ :=
  ⟨nodup_nil, nofun, nofun, nofun, nofun⟩

theorem marked_started : Marked objects (started objects left right) :=
  marked_pushed (marked_pushed marked_empty (by decide) (by decide)) (by decide) (by decide)

theorem seen_started : (started objects left right).seen side x ↔ x = tipOf left right side := by
  rw [started, seen_pushed, seen_pushed]
  have hempty : ¬ (⟨[], []⟩ : Comparing).seen side x := by
    simp [Comparing.seen, Comparing.flagOf, Comparing.mark]
  cases side <;> simp [hempty, tipOf, LEFT, RIGHT, show Nat.testBit 1 1 = false from rfl,
    show Nat.testBit 2 1 = true from rfl]

theorem queued_started (h : (started objects left right).seen side x) :
    x ∈ (started objects left right).queue := by
  have hempty : ¬ (⟨[], []⟩ : Comparing).seen side x := by
    simp [Comparing.seen, Comparing.flagOf, Comparing.mark]
  by_cases hfirst : (pushed objects LEFT ⟨[], []⟩ left).seen side x
  · exact subset_queue_pushed (by decide) (queued_of_pushed (by decide) hfirst hempty)
  · exact queued_of_pushed (by decide) h hfirst

theorem walked_started : WalkedFrom objects (tipOf left right) (started objects left right) := by
  refine ⟨fun side => seen_started.mpr rfl, ?_, ?_, ?_, ?_⟩
  · intro side x hseen
    rw [seen_started.mp hseen]
    exact Before.refl _
  · exact fun x hwait side hseen => absurd (queued_started hseen) hwait
  · exact fun x _ side hseen _ => queued_started hseen
  · exact fun x hshared side hseen => .inl ⟨hshared, .inl ⟨side, seen_started.mp hseen⟩⟩

deriving instance DecidableEq for Mark, Comparing

/-- The commits `a` and `b` on `c` on `d`; `a` is dated as given, the others 4, 3 and 2. -/
def forkId (name : Char) : Sha := List.replicate 40 name

def forkCommit (parent : Option Char) (time : Char) : GitObject :=
  ⟨.commit, ((parent.elim [] fun name => "parent ".toList ++ forkId name ++ ['\n']) ++
    "author A <a@b> ".toList ++ time :: " +0000\n\nm\n".toList).map fun c => UInt8.ofNat c.toNat⟩

def forkObjects (time : Char) (oid : Sha) : GitObject :=
  if oid = forkId 'a' then forkCommit (some 'c') time
  else if oid = forkId 'b' then forkCommit (some 'c') '4'
  else if oid = forkId 'c' then forkCommit (some 'd') '3'
  else forkCommit none '2'

theorem forkOrigin_refKeys :
    ∀ entry ∈ ([] : List (List Char × List Char)), isRefKey entry.1 = true := by simp

def forkOrigin : Origin := ⟨[], fun _ => true, forkOrigin_refKeys⟩

/-- A round on a queue that is in order. -/
theorem runOn_comparing_sorted (oid : Sha) (st' : Comparing)
    (hany : (st.queue.any fun oid => st.flagOf oid ≠ BOTH) = true)
    (hsorted : st.queue.Pairwise fun a b => st.timeOf a ≤ st.timeOf b)
    (hlast : st.queue.getLast? = some oid) (hstored : ∀ parent ∈ st.parentsOf oid,
      origin.hasObject parent = true ∧ (objects parent).type = .commit)
    (hnext : (st.parentsOf oid).foldl (pushed objects (st.flagOf oid))
      { st with queue := st.queue.dropLast } = st') (steps : Nat) (state : σ) :
    (comparing objects (steps + 1) st).runOn origin state =
      (comparing objects steps st').runOn origin state := by
  have hqueue : (st.queue.mergeSort fun a b => decide (st.timeOf a ≤ st.timeOf b)) = st.queue :=
    mergeSort_of_pairwise (hsorted.imp decide_eq_true)
  rw [comparing, if_pos hany]
  simp only [hqueue, hlast]
  rw [runOn_bind, runOn_foldlM_push hstored, ← hnext]

/-- The four commits as they are marked in the course of the walk. -/
def forkMarks (c d : Nat) : List Mark :=
  [⟨forkId 'a', LEFT, 1, [forkId 'c']⟩, ⟨forkId 'b', RIGHT, 4, [forkId 'c']⟩,
    ⟨forkId 'c', c, 3, [forkId 'd']⟩, ⟨forkId 'd', d, 2, []⟩]

theorem runOn_fork :
    (comparing (forkObjects '1') 100000 (started (forkObjects '1') (forkId 'a') (forkId 'b'))).runOn
      forkOrigin () = (.ok ⟨forkMarks BOTH RIGHT, [forkId 'c']⟩, ()) := by
  rw [runOn_comparing_sorted (forkId 'b') ⟨(forkMarks RIGHT RIGHT).take 3, [forkId 'a', forkId 'c']⟩
    (by decide +kernel) (by decide +kernel) (by decide +kernel) (by decide +kernel)
    (by decide +kernel)]
  rw [runOn_comparing_sorted (forkId 'c') ⟨forkMarks RIGHT RIGHT, [forkId 'a', forkId 'd']⟩
    (by decide +kernel) (by decide +kernel) (by decide +kernel) (by decide +kernel)
    (by decide +kernel)]
  rw [runOn_comparing_sorted (forkId 'd') ⟨forkMarks RIGHT RIGHT, [forkId 'a']⟩
    (by decide +kernel) (by decide +kernel) (by decide +kernel) (by decide +kernel)
    (by decide +kernel)]
  rw [runOn_comparing_sorted (forkId 'a') ⟨forkMarks BOTH RIGHT, [forkId 'c']⟩
    (by decide +kernel) (by decide +kernel) (by decide +kernel) (by decide +kernel)
    (by decide +kernel)]
  rfl

theorem compared_fork : (⟨forkMarks BOTH RIGHT, [forkId 'c']⟩ : Comparing).compared =
    ⟨some (forkId 'c'), 1, 2⟩ := by
  have hbest : (⟨forkMarks BOTH RIGHT, [forkId 'c']⟩ : Comparing).best = [forkId 'c'] := by
    rw [Comparing.best, show ((⟨forkMarks BOTH RIGHT, [forkId 'c']⟩ : Comparing).common.filter
      fun oid => oid ∉ (⟨forkMarks BOTH RIGHT, [forkId 'c']⟩ : Comparing).beneath
        (⟨forkMarks BOTH RIGHT, [forkId 'c']⟩ : Comparing).common []) = [forkId 'c'] by
      decide +kernel, mergeSort_singleton]
  calc (⟨forkMarks BOTH RIGHT, [forkId 'c']⟩ : Comparing).compared
      = ⟨(⟨forkMarks BOTH RIGHT, [forkId 'c']⟩ : Comparing).best.head?, 1, 2⟩ := rfl
    _ = ⟨some (forkId 'c'), 1, 2⟩ := by rw [hbest, List.head?_cons]

section

variable {time : Char} {y : Sha} (htime : time = '1' ∨ time = '5')

@[simp] theorem forkId_inj {c d : Char} : forkId c = forkId d ↔ c = d := by
  simp [forkId]

include htime in
theorem fork_parent : y ∈ parentsOf (forkObjects time) x ↔
    (x = forkId 'a' ∨ x = forkId 'b') ∧ y = forkId 'c' ∨ x = forkId 'c' ∧ y = forkId 'd' := by
  have ha : (parseCommitText (forkCommit (some 'c') time).data).parents = [forkId 'c'] := by
    rcases htime with rfl | rfl <;> decide +kernel
  have hb : (parseCommitText (forkCommit (some 'c') '4').data).parents = [forkId 'c'] := by
    decide +kernel
  have hc : (parseCommitText (forkCommit (some 'd') '3').data).parents = [forkId 'd'] := by
    decide +kernel
  have hd : (parseCommitText (forkCommit none '2').data).parents = [] := by decide +kernel
  unfold parentsOf forkObjects
  by_cases hxa : x = forkId 'a'
  · simp [hxa, ha]
  by_cases hxb : x = forkId 'b'
  · simp [hxb, hb]
  by_cases hxc : x = forkId 'c'
  · simp [hxc, hc]
  · simp [hxa, hxb, hxc, hd]

include htime in
theorem fork_before : Before (parentsOf (forkObjects time)) y x ↔ y = x ∨
    (y = forkId 'c' ∧ (x = forkId 'a' ∨ x = forkId 'b')) ∨
    (y = forkId 'd' ∧ (x = forkId 'a' ∨ x = forkId 'b' ∨ x = forkId 'c')) := by
  have hparent : ∀ x y, y ∈ parentsOf (forkObjects time) x ↔
      (x = forkId 'a' ∨ x = forkId 'b') ∧ y = forkId 'c' ∨ x = forkId 'c' ∧ y = forkId 'd' :=
    fun x y => fork_parent htime
  constructor
  · intro h
    induction h with
    | refl => exact .inl rfl
    | tail _ hstep ih =>
      rw [hparent] at hstep
      rcases hstep with ⟨hmid, rfl⟩ | ⟨rfl, rfl⟩
      · rcases ih with rfl | ⟨rfl, -⟩ | ⟨rfl, -⟩
        · exact .inr (.inl ⟨rfl, hmid⟩)
        · simp at hmid
        · simp at hmid
      · rcases ih with rfl | ⟨-, hx⟩ | ⟨h, -⟩
        · exact .inr (.inr ⟨rfl, .inr (.inr rfl)⟩)
        · exact .inr (.inr ⟨rfl, hx.imp_right .inl⟩)
        · simp at h
  · have hc : ∀ x, x = forkId 'a' ∨ x = forkId 'b' →
        Before (parentsOf (forkObjects time)) (forkId 'c') x := fun x hx =>
      .of_parent ((hparent x _).mpr (.inl ⟨hx, rfl⟩))
    have hd : Before (parentsOf (forkObjects time)) (forkId 'd') (forkId 'c') :=
      .of_parent ((hparent _ _).mpr (.inr ⟨rfl, rfl⟩))
    rintro (rfl | ⟨rfl, hx⟩ | ⟨rfl, hx⟩)
    · exact .refl y
    · exact hc x hx
    · rcases hx with hx | hx | rfl
      · exact hd.trans (hc x (.inl hx))
      · exact hd.trans (hc x (.inr hx))
      · exact hd

include htime in
theorem fork_reached (side : Bool) :
    Reached (parentsOf (forkObjects time)) (tipOf (forkId 'a') (forkId 'b')) side x ↔
      x = tipOf (forkId 'a') (forkId 'b') side ∨ x = forkId 'c' ∨ x = forkId 'd' := by
  rw [Reached, fork_before htime]
  cases side <;> simp [tipOf]

include htime in
theorem fork_shared : Shared (parentsOf (forkObjects time)) (tipOf (forkId 'a') (forkId 'b')) x ↔
      x = forkId 'c' ∨ x = forkId 'd' := by
  unfold Shared
  rw [Bool.forall_bool, fork_reached htime, fork_reached htime]
  constructor
  · rintro ⟨rfl | h, h'⟩
    · simp [tipOf] at h'
    · exact h
  · exact fun h => ⟨.inr h, .inr h⟩

include htime in
theorem commits_fork : Commits (forkObjects time) forkOrigin (tipOf (forkId 'a') (forkId 'b')) where
  acyclic v parent hparent hbefore := by
    rw [fork_parent htime] at hparent
    rw [fork_before htime] at hbefore
    rcases hparent with ⟨rfl | rfl, rfl⟩ | ⟨rfl, rfl⟩ <;> simp at hbefore
  finite := by
    refine (Set.toFinite {forkId 'a', forkId 'b', forkId 'c', forkId 'd'}).subset ?_
    rintro x ⟨side, hreached⟩
    rw [fork_reached htime] at hreached
    cases side <;> rcases hreached with rfl | rfl | rfl <;> simp [tipOf]
  stored side x hreached := by
    rw [fork_reached htime] at hreached
    cases side <;> rcases hreached with rfl | rfl | rfl <;> decide
  commit side x _ := by
    unfold forkObjects
    split_ifs <;> rfl

end

theorem timely_fork : Timely (forkObjects '5') (tipOf (forkId 'a') (forkId 'b')) := by
  have htime : '5' = '1' ∨ '5' = '5' := .inr rfl
  have hentry : ∀ x, Entry (parentsOf (forkObjects '5')) (tipOf (forkId 'a') (forkId 'b')) x →
      x = forkId 'c' := by
    rintro x ⟨hshared, htip | ⟨child, side, -, hchild, hparent⟩⟩
    · obtain ⟨side, rfl⟩ := htip
      rw [fork_shared htime] at hshared
      cases side <;> simp [tipOf] at hshared
    · rw [fork_parent htime] at hparent
      rcases hparent with ⟨-, rfl⟩ | ⟨rfl, -⟩
      · rfl
      · exact absurd ((fork_shared htime).mpr (.inl rfl)) hchild
  constructor
  · intro x hx side
    rw [hentry x hx]
    refine Relation.ReflTransGen.single ⟨(fork_parent htime).mpr (.inl ⟨?_, rfl⟩), ?_⟩
    · cases side <;> simp [tipOf]
    · cases side <;> decide +kernel
  · intro x hx hnot
    refine absurd ⟨hx.1, fun w hw hbefore => ?_⟩ hnot
    rw [hentry x hx] at hbefore ⊢
    rcases (fork_shared htime).mp hw with rfl | rfl
    · rfl
    · rw [fork_before htime] at hbefore
      simp at hbefore

end Catamorphic.Git.OriginObjects
