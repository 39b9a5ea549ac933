import Mathlib.Data.List.Basic
import Mathlib.Data.List.Find
import Mathlib.Data.List.Infix

/-!
# Leftmost replacement over a list of words

A global search for a choice of words reads a text from the left. Where a word
begins it takes that word, the first of the list when several begin there, and
goes on behind it; where none begins it passes over one symbol. This is what a
global regular expression made of alternatives does.

The file is about what a *cut* of the text does to that search. A text may be cut
at `c` without anyone noticing when

* no symbol before `c` begins a tail that a longer text could still turn into a
  word (`Open`), and
* no word found lies across `c` (`Whole`).

`parts_append_of_cut` says the search over the whole is then the search up to the
cut followed by the search behind it, whatever comes later. `hold` computes such a
cut from the text alone.
-/

namespace Catamorphic.Munch

open List

variable {α : Type} [DecidableEq α]

/-- What a search makes of a text: symbols passed over and words found. -/
inductive Part (α : Type) where
  | lit (a : α)
  | hit (w : List α)
deriving DecidableEq, Repr

/-- The word found at the start of `s`: the first of the list that begins there. -/
def matchAt (ws : List (List α)) (s : List α) : Option (List α) :=
  ws.find? (fun w => w.isPrefixOf s)

/-- The search, with `k` symbols still inside the word found last. -/
def partsFrom (ws : List (List α)) : Nat → List α → List (Part α)
  | _, [] => []
  | k + 1, _ :: s => partsFrom ws k s
  | 0, a :: s =>
    match matchAt ws (a :: s) with
    | some w => .hit w :: partsFrom ws (w.length - 1) s
    | none => .lit a :: partsFrom ws 0 s

/-- The search over a whole text. -/
def parts (ws : List (List α)) (s : List α) : List (Part α) := partsFrom ws 0 s

/-- Where each word was found, counted from the start of the text. -/
def hitsFrom (ws : List (List α)) : Nat → List α → List (Nat × List α)
  | _, [] => []
  | k + 1, _ :: s => (hitsFrom ws k s).map (fun p => (p.1 + 1, p.2))
  | 0, a :: s =>
    match matchAt ws (a :: s) with
    | some w => (0, w) :: (hitsFrom ws (w.length - 1) s).map (fun p => (p.1 + 1, p.2))
    | none => (hitsFrom ws 0 s).map (fun p => (p.1 + 1, p.2))

def hits (ws : List (List α)) (s : List α) : List (Nat × List α) := hitsFrom ws 0 s

/-- `tail` is the start of a longer word. -/
def Open (ws : List (List α)) (tail : List α) : Prop :=
  ∃ w ∈ ws, tail.length < w.length ∧ tail <+: w

instance (ws : List (List α)) (tail : List α) : Decidable (Open ws tail) := by
  unfold Open; infer_instance

/-- No word found lies across `c`. -/
def Whole (ws : List (List α)) (k c : Nat) (s : List α) : Prop :=
  ∀ p ∈ hitsFrom ws k s, p.1 < c → p.1 + p.2.length ≤ c

variable {ws : List (List α)} {s : List α} {w : List α}

/-! ## Cutting a text -/

theorem matchAt_append (t : List α) (h : ¬ Open ws s) : matchAt ws (s ++ t) = matchAt ws s := by
  refine List.find?_congr ?_
  intro w hw
  have hiff : w <+: s ++ t ↔ w <+: s := by
    refine ⟨fun hp => ?_, fun hp => hp.trans (prefix_append s t)⟩
    rcases Nat.lt_or_ge s.length w.length with hlt | hge
    · exact absurd ⟨w, hw, hlt, prefix_of_prefix_length_le (prefix_append s t) hp
        (Nat.le_of_lt hlt)⟩ h
    · exact prefix_of_prefix_length_le hp (prefix_append s t) hge
  rw [Bool.eq_iff_iff, isPrefixOf_iff_prefix, isPrefixOf_iff_prefix]
  exact hiff

theorem matchAt_mem (h : matchAt ws s = some w) : w ∈ ws ∧ w <+: s := by
  have hp : w.isPrefixOf s = true := List.find?_some (p := fun v : List α => v.isPrefixOf s) h
  exact ⟨mem_of_find?_eq_some h, isPrefixOf_iff_prefix.mp hp⟩

theorem matchAt_none (h : matchAt ws s = none) (hw : w ∈ ws) : ¬ w <+: s := by
  intro hp
  have := List.find?_eq_none.mp h w hw
  exact this (List.isPrefixOf_iff_prefix.mpr hp)

/-- A word that fits before the cut is found there as well. -/
theorem matchAt_take {c : Nat} (hc : ∀ w, matchAt ws s = some w → w.length ≤ c) :
    matchAt ws (s.take c) = matchAt ws s := by
  have htake : ∀ w : List α, w <+: s.take c → w <+: s :=
    fun w hp => hp.trans (List.take_prefix c s)
  cases hm : matchAt ws s with
  | none =>
    refine List.find?_eq_none.mpr ?_
    intro w hw hp
    exact matchAt_none hm hw (htake w (List.isPrefixOf_iff_prefix.mp hp))
  | some w =>
    have hlen := hc w hm
    obtain ⟨hp, as, bs, hsplit, hbefore⟩ := List.find?_eq_some_iff_append.mp hm
    refine List.find?_eq_some_iff_append.mpr ⟨?_, as, bs, hsplit, ?_⟩
    · have hp' := isPrefixOf_iff_prefix.mp hp
      refine isPrefixOf_iff_prefix.mpr ?_
      exact prefix_take_iff.mpr ⟨hp', hlen⟩
    · intro a ha
      have hno := hbefore a ha
      simp only [Bool.not_eq_true', Bool.eq_false_iff, ne_eq, isPrefixOf_iff_prefix] at hno ⊢
      exact fun hpa => hno (htake a hpa)

/--
**A text may be cut where nothing found lies across the cut and no tail before it
can still become a word.** The induction is on the text; `k` is what is left of the
word found last, which ends before the cut.
-/
theorem partsFrom_append_of_cut (t : List α) : ∀ (s : List α) (k c : Nat), k ≤ c → c ≤ s.length →
      (∀ i, k ≤ i → i < c → ¬ Open ws (s.drop i)) → Whole ws k c s →
      partsFrom ws k (s ++ t) = partsFrom ws k (s.take c) ++ partsFrom ws 0 (s.drop c ++ t) := by
  intro s
  induction s with
  | nil =>
    intro k c hk hc _ _
    have hc0 : c = 0 := by simpa using hc
    have hk0 : k = 0 := by omega
    subst hc0; subst hk0
    simp [partsFrom]
  | cons a s ih =>
    intro k c hk hc hopen hwhole
    cases c with
    | zero =>
      have hk0 : k = 0 := by omega
      subst hk0
      simp [partsFrom]
    | succ c =>
      have hcs : c ≤ s.length := by simpa using hc
      have hopen' : ∀ j, k - 1 ≤ j → k ≤ j + 1 → j < c → ¬ Open ws (s.drop j) := by
        intro j _ hj hjc
        have := hopen (j + 1) hj (by omega)
        simpa using this
      cases k with
      | succ k =>
        -- still inside the word found last
        have hw' : Whole ws k c s := by
          intro p hp hlt
          have := hwhole (p.1 + 1, p.2)
            (by simp only [hitsFrom, mem_map]; exact ⟨p, hp, rfl⟩) (by simpa using hlt)
          simp only at this
          omega
        simpa [partsFrom] using
          ih k c (by omega) hcs (fun j hj => hopen' j (by omega) (by omega)) hw'
      | zero =>
        have hno : ¬ Open ws (a :: s) := by
          have := hopen 0 (Nat.le_refl 0) (Nat.succ_pos c)
          simpa using this
        have hext : matchAt ws (a :: (s ++ t)) = matchAt ws (a :: s) := by
          have := matchAt_append t hno
          simpa using this
        have hfit : ∀ w, matchAt ws (a :: s) = some w → w.length ≤ c + 1 := by
          intro w hm
          have := hwhole (0, w) (by simp [hitsFrom, hm]) (Nat.succ_pos c)
          simpa using this
        have hcut : matchAt ws (a :: s.take c) = matchAt ws (a :: s) := by
          have := matchAt_take (s := a :: s) (c := c + 1) hfit
          simpa using this
        cases hm : matchAt ws (a :: s) with
        | some w =>
          have hw' : Whole ws (w.length - 1) c s := by
            intro p hp hlt
            have := hwhole (p.1 + 1, p.2)
              (by simp only [hitsFrom, hm, mem_cons, mem_map]
                  exact Or.inr ⟨p, hp, rfl⟩) (by simpa using hlt)
            simp only at this
            omega
          have hlen := hfit w hm
          have := ih (w.length - 1) c (by omega) hcs
            (fun j hj => hopen' j (by omega) (by omega)) hw'
          simp only [cons_append, take_succ_cons, drop_succ_cons, partsFrom, hext, hcut, hm]
          rw [this]
        | none =>
          have hw' : Whole ws 0 c s := by
            intro p hp hlt
            have := hwhole (p.1 + 1, p.2)
              (by simp only [hitsFrom, hm, mem_map]; exact ⟨p, hp, rfl⟩)
              (by simpa using hlt)
            simp only at this
            omega
          have := ih 0 c (Nat.zero_le c) hcs
            (fun j _ => hopen' j (by omega) (by omega)) hw'
          simp only [cons_append, take_succ_cons, drop_succ_cons, partsFrom, hext, hcut, hm]
          rw [this]

theorem parts_append_of_cut {c : Nat} (t : List α) (hc : c ≤ s.length)
    (hopen : ∀ i, i < c → ¬ Open ws (s.drop i)) (hwhole : Whole ws 0 c s) :
    parts ws (s ++ t) = parts ws (s.take c) ++ parts ws (s.drop c ++ t) :=
  partsFrom_append_of_cut t s 0 c (Nat.zero_le c) hc (fun i _ => hopen i) hwhole

/-! ## Words found come one after the other -/

/-- Two words found do not overlap: one ends where the other begins, or before. -/
theorem hitsFrom_apart :
    ∀ (s : List α) (k : Nat) (p q : Nat × List α), p ∈ hitsFrom ws k s → q ∈ hitsFrom ws k s →
      p.1 < q.1 → p.1 + p.2.length ≤ q.1 := by
  have hafter : ∀ (s : List α) (k : Nat) (p : Nat × List α), p ∈ hitsFrom ws k s → k ≤ p.1 := by
    intro s
    induction s with
    | nil => intro k p hp; cases k <;> simp [hitsFrom] at hp
    | cons a s ih =>
      intro k p hp
      cases k with
      | zero => exact Nat.zero_le _
      | succ k =>
        simp only [hitsFrom, mem_map] at hp
        obtain ⟨q, hq, rfl⟩ := hp
        exact Nat.succ_le_succ (ih k q hq)
  intro s
  induction s with
  | nil => intro k p q hp; cases k <;> simp [hitsFrom] at hp
  | cons a s ih =>
    -- both lie behind the first symbol: the induction hypothesis, shifted by one
    have shifted : ∀ (k : Nat) (p q : Nat × List α),
        p ∈ (hitsFrom ws k s).map (fun r => (r.1 + 1, r.2)) →
        q ∈ (hitsFrom ws k s).map (fun r => (r.1 + 1, r.2)) →
        p.1 < q.1 → p.1 + p.2.length ≤ q.1 := by
      intro k p q hp hq hlt
      obtain ⟨p', hp', rfl⟩ := mem_map.mp hp
      obtain ⟨q', hq', rfl⟩ := mem_map.mp hq
      have := ih k p' q' hp' hq' (by simpa using hlt)
      simp only
      omega
    intro k p q hp hq hlt
    cases k with
    | succ k => exact shifted k p q hp hq hlt
    | zero =>
      cases hm : matchAt ws (a :: s) with
      | none =>
        simp only [hitsFrom, hm] at hp hq
        exact shifted 0 p q hp hq hlt
      | some w =>
        simp only [hitsFrom, hm, mem_cons] at hp hq
        rcases hp with rfl | hp
        · rcases hq with rfl | hq
          · exact absurd hlt (Nat.lt_irrefl _)
          · obtain ⟨q', hq', rfl⟩ := mem_map.mp hq
            have := hafter s _ q' hq'
            simp only
            omega
        · rcases hq with rfl | hq
          · exact absurd hlt (Nat.not_lt_zero _)
          · exact shifted _ p q hp hq hlt

theorem hits_whole_end : ∀ (s : List α) (k : Nat) (p : Nat × List α), p ∈ hitsFrom ws k s →
      p.1 + p.2.length ≤ s.length := by
  intro s
  induction s with
  | nil => intro k p hp; cases k <;> simp [hitsFrom] at hp
  | cons a s ih =>
    have shifted : ∀ (k : Nat) (p : Nat × List α),
        p ∈ (hitsFrom ws k s).map (fun r => (r.1 + 1, r.2)) →
        p.1 + p.2.length ≤ (a :: s).length := by
      intro k p hp
      obtain ⟨p', hp', rfl⟩ := mem_map.mp hp
      have := ih k p' hp'
      simp only [length_cons]
      omega
    intro k p hp
    cases k with
    | succ k => exact shifted k p hp
    | zero =>
      cases hm : matchAt ws (a :: s) with
      | none =>
        simp only [hitsFrom, hm] at hp
        exact shifted 0 p hp
      | some w =>
        simp only [hitsFrom, hm, mem_cons] at hp
        rcases hp with rfl | hp
        · have := (matchAt_mem hm).2.length_le
          simpa using this
        · exact shifted _ p hp

/-! ## What is passed over holds no word -/

theorem partsFrom_lit_prefix : ∀ (s u : List α) (rest : List (Part α)),
      partsFrom ws 0 s = u.map Part.lit ++ rest → u <+: s := by
  intro s
  induction s with
  | nil =>
    intro u rest h
    cases u with
    | nil => exact nil_prefix
    | cons b u => simp [partsFrom] at h
  | cons a s ih =>
    intro u rest h
    cases u with
    | nil => exact nil_prefix
    | cons b u =>
      cases hm : matchAt ws (a :: s) with
      | some w => simp [partsFrom, hm] at h
      | none =>
        simp only [partsFrom, hm, map_cons, cons_append, List.cons.injEq, Part.lit.injEq] at h
        obtain ⟨rfl, hrest⟩ := h
        exact cons_prefix_cons.mpr ⟨rfl, ih u rest hrest⟩

/-- **A stretch the search passed over contains no word.** -/
theorem partsFrom_stretch (hne : ∀ w ∈ ws, w ≠ []) :
    ∀ (s : List α) (k : Nat) (before : List (Part α)) (u : List α) (rest : List (Part α)),
      partsFrom ws k s = before ++ (u.map Part.lit ++ rest) → ∀ w ∈ ws, ¬ w <:+: u := by
  intro s
  induction s with
  | nil =>
    intro k before u rest h w hw hin
    have hu : u = [] := by
      cases k <;> simp [partsFrom] at h <;> exact h.2.1
    subst hu
    exact hne w hw (infix_nil.mp hin)
  | cons a s ih =>
    intro k before u rest h w hw hin
    cases k with
    | succ k => exact ih k before u rest (by simpa [partsFrom] using h) w hw hin
    | zero =>
      cases before with
      | cons x before =>
        cases hm : matchAt ws (a :: s) with
        | some v | none =>
          simp only [partsFrom, hm, cons_append, List.cons.injEq] at h
          exact ih _ before u rest h.2 w hw hin
      | nil =>
        cases u with
        | nil => exact hne w hw (infix_nil.mp hin)
        | cons b u =>
          have hpre : b :: u <+: a :: s :=
            partsFrom_lit_prefix (a :: s) (b :: u) rest (by simpa using h)
          cases hm : matchAt ws (a :: s) with
          | some v => simp [partsFrom, hm] at h
          | none =>
            simp only [partsFrom, hm, nil_append, map_cons, cons_append,
              List.cons.injEq] at h
            rcases infix_cons_iff.mp hin with hp | hin'
            · exact matchAt_none hm hw (hp.trans hpre)
            · exact ih 0 [] u rest (by simpa using h.2) w hw hin'

/-! ## Where to cut -/

/-- The first tail, no longer than `longest` allows, that can still become a word. -/
def firstOpen (ws : List (List α)) (longest : Nat) (s : List α) : Option Nat :=
  (List.range' (s.length + 1 - longest) (s.length - (s.length + 1 - longest))).find?
    (fun start => decide (Open ws (s.drop start)))

/-- The word found at `p` lies across `start`. -/
def across (start : Nat) (p : Nat × List α) : Bool :=
  decide (p.1 < start) && decide (start < p.1 + p.2.length)

/--
Where the part of `s` that is settled ends: at the first tail that can still become
a word, or at the beginning of the word found that such a tail would cut in two.
-/
def hold (ws : List (List α)) (longest : Nat) (s : List α) : Nat :=
  match firstOpen ws longest s with
  | none => s.length
  | some start =>
    match (hits ws s).find? (across start) with
    | some p => p.1
    | none => start

variable {longest : Nat}

theorem firstOpen_none (hlong : ∀ w ∈ ws, w.length ≤ longest) (h : firstOpen ws longest s = none) :
    ∀ i, i < s.length → ¬ Open ws (s.drop i) := by
  rintro i hi ⟨w, hw, hlt, hp⟩
  have hlen := hlong w hw
  simp only [length_drop] at hlt
  have := List.find?_eq_none.mp h i (mem_range'_1.mpr ⟨by omega, by omega⟩)
  exact this (decide_eq_true ⟨w, hw, by simpa using hlt, hp⟩)

theorem firstOpen_some {start : Nat} (hlong : ∀ w ∈ ws, w.length ≤ longest)
    (h : firstOpen ws longest s = some start) :
    start < s.length ∧ ∀ i, i < start → ¬ Open ws (s.drop i) := by
  have hmem := mem_range'_1.mp (mem_of_find?_eq_some h)
  refine ⟨by omega, ?_⟩
  rintro i hi ⟨w, hw, hlt, hp⟩
  have hlen := hlong w hw
  simp only [length_drop] at hlt
  have := (List.find?_range'_eq_some.mp h).2.2 i (by omega) hi
  simp only [Bool.not_eq_true', decide_eq_false_iff_not] at this
  exact this ⟨w, hw, by simpa using hlt, hp⟩

/-- **`hold` is a cut nobody notices.** -/
theorem hold_cut (s : List α) (hlong : ∀ w ∈ ws, w.length ≤ longest) :
    hold ws longest s ≤ s.length ∧ (∀ i, i < hold ws longest s → ¬ Open ws (s.drop i)) ∧
      Whole ws 0 (hold ws longest s) s := by
  cases hf : firstOpen ws longest s with
  | none =>
    have hc : hold ws longest s = s.length := by simp only [hold, hf]
    rw [hc]
    refine ⟨Nat.le_refl _, firstOpen_none hlong hf, ?_⟩
    intro p hp _
    exact hits_whole_end s 0 p hp
  | some start =>
    obtain ⟨hstart, hopen⟩ := firstOpen_some hlong hf
    cases hx : (hits ws s).find? (across start) with
    | some p =>
      have hc : hold ws longest s = p.1 := by simp only [hold, hf, hx]
      have hlt := List.find?_some hx
      simp only [across, Bool.and_eq_true, decide_eq_true_eq] at hlt
      rw [hc]
      refine ⟨by omega, fun i hi => hopen i (by omega), ?_⟩
      intro q hq hqp
      exact hitsFrom_apart s 0 q p hq (mem_of_find?_eq_some hx) hqp
    | none =>
      have hc : hold ws longest s = start := by simp only [hold, hf, hx]
      rw [hc]
      refine ⟨Nat.le_of_lt hstart, hopen, ?_⟩
      intro q hq hqs
      have := List.find?_eq_none.mp hx q hq
      simp only [across, Bool.and_eq_true, decide_eq_true_eq, not_and, Nat.not_lt] at this
      exact this hqs

/-- The search over what comes in is the search over the settled part, then over the rest. -/
theorem parts_hold (s t : List α) (hlong : ∀ w ∈ ws, w.length ≤ longest) : parts ws (s ++ t) =
      parts ws (s.take (hold ws longest s)) ++ parts ws (s.drop (hold ws longest s) ++ t) := by
  obtain ⟨hle, hopen, hwhole⟩ := hold_cut s hlong
  exact parts_append_of_cut t hle hopen hwhole

end Catamorphic.Munch
