import Mathlib.Data.List.Forall2

/-!
# Computations that succeed together

Two fallible computations go together when both fail, or both succeed with results that belong
together. The one is stricter than the other when it is the other that asks for something besides.
The rules follow the ways such computations are put together.
-/

namespace Catamorphic

open List

variable {A B C D E F X Y : Type}

/-- Both fail, or both succeed with results in `R`. -/
inductive Together (R : A → B → Prop) : Except E A → Except F B → Prop
  | ok {a : A} {b : B} : R a b → Together R (.ok a) (.ok b)
  | error {e : E} {f : F} : Together R (.error e) (.error f)

namespace Together

variable {R : A → B → Prop} {S : C → D → Prop} {m : Except E A} {n : Except F B} {T : X → Y → Prop}
  {xs : List X} {ys : List Y}

theorem bind {f : A → Except E C} {g : B → Except F D} (h : Together R m n)
    (hnext : ∀ a b, R a b → Together S (f a) (g b)) : Together S (m >>= f) (n >>= g) := by
  cases h with
  | ok hR => exact hnext _ _ hR
  | error => exact .error

theorem map {f : A → C} {g : B → D} (h : Together R m n) (hnext : ∀ a b, R a b → S (f a) (g b)) :
    Together S (m.map f) (n.map g) := by
  cases h with
  | ok hR => exact .ok (hnext _ _ hR)
  | error => exact .error

/-- Steps in a row, over items that belong together. -/
theorem foldlM {f : A → X → Except E A} {g : B → Y → Except F B} (hitems : List.Forall₂ T xs ys)
    (h : ∀ a b x y, R a b → T x y → Together R (f a x) (g b y)) {a : A} {b : B} (hR : R a b) :
    Together R (xs.foldlM f a) (ys.foldlM g b) := by
  induction hitems generalizing a b with
  | nil => exact .ok hR
  | cons hfirst _ ih =>
    exact (h _ _ _ _ hR hfirst).bind fun _ _ => ih

theorem mapM {f : X → Except E A} {g : Y → Except F B} (hitems : List.Forall₂ T xs ys)
    (h : ∀ x y, T x y → Together R (f x) (g y)) :
    Together (List.Forall₂ R) (xs.mapM f) (ys.mapM g) := by
  induction hitems with
  | nil => exact .ok .nil
  | cons hfirst _ ih =>
    rw [mapM_cons, mapM_cons]
    exact (h _ _ hfirst).bind fun a b hR => ih.bind fun as bs hrest => .ok (.cons hR hrest)

/-- Where the one succeeds the other does, and there the results belong together. -/
theorem ok_iff (h : Together R m n) : (∃ a, m = .ok a) ↔ ∃ b, n = .ok b := by
  cases h with
  | ok => exact ⟨fun _ => ⟨_, rfl⟩, fun _ => ⟨_, rfl⟩⟩
  | error => exact ⟨nofun, nofun⟩

theorem of_ok {a : A} (h : Together R m n) (hok : m = .ok a) : ∃ b, n = .ok b ∧ R a b := by
  cases h with
  | ok hR =>
    obtain rfl := Except.ok.inj hok
    exact ⟨_, rfl, hR⟩
  | error => cases hok

end Together

/-! ## Asking for more -/

variable {Item State : Type}

/-- The first is the second that asks for `P` besides. -/
def Stricter (P : Prop) (m : Except E A) (n : Except F A) : Prop :=
  ∀ a, m = .ok a ↔ n = .ok a ∧ P

namespace Stricter

variable {P Q : Prop} {m : Except E A} {n : Except F A} {f : A → Except E B} {g : A → Except F B}
  {items : List Item}

theorem ok (a : A) : Stricter True (.ok a : Except E A) (.ok a : Except F A) :=
  fun b => by simp only [Except.ok.injEq, and_true]

theorem error (e : E) (f : F) : Stricter P (.error e : Except E A) (.error f) :=
  fun _ => ⟨nofun, fun h => nomatch h.1⟩

theorem refused (e : E) (n : Except F A) (hP : ¬ P) : Stricter P (.error e) n :=
  fun _ => ⟨nofun, fun h => absurd h.2 hP⟩

theorem iff (h : Stricter P m n) (hPQ : P ↔ Q) : Stricter Q m n :=
  fun a => (h a).trans (and_congr_right fun _ => hPQ)

theorem bind (h : Stricter P m n)
    (hnext : ∀ a, n = .ok a → Stricter Q (f a) (g a)) : Stricter (P ∧ Q) (m >>= f) (n >>= g) := by
  intro b
  rcases n with failure | a
  · rcases m with failure' | a
    · exact ⟨nofun, nofun⟩
    · exact absurd ((h a).mp rfl).1 nofun
  · have hnext := hnext a rfl b
    rcases m with failure | a'
    · refine ⟨nofun, fun ⟨_, hP, _⟩ => ?_⟩
      exact absurd ((h a).mpr ⟨rfl, hP⟩) nofun
    · obtain ⟨heq, hP⟩ := (h a').mp rfl
      obtain rfl := Except.ok.inj heq
      exact hnext.trans ⟨fun ⟨hok, hQ⟩ => ⟨hok, hP, hQ⟩, fun ⟨hok, _, hQ⟩ => ⟨hok, hQ⟩⟩

/-- A result that is only made something of. -/
theorem bind_ok (h : Stricter P m n)
    (hnext : ∀ a, Stricter True (f a) (g a)) : Stricter P (m >>= f) (n >>= g) :=
  (h.bind fun a _ => hnext a).iff (and_iff_left trivial)

theorem mapM {f : Item → Except E A} {g : Item → Except F A} {P : Item → Prop}
    (h : ∀ item ∈ items, Stricter (P item) (f item) (g item)) :
    Stricter (∀ item ∈ items, P item) (items.mapM f) (items.mapM g) := by
  induction items with
  | nil => exact (ok []).iff (by simp)
  | cons item items ih =>
    rw [mapM_cons, mapM_cons]
    have hrest := ih (forall_mem_cons.mp h).2
    refine ((h item (.head _)).bind fun a _ => hrest.bind_ok fun rest => ok (a :: rest)).iff ?_
    rw [forall_mem_cons]

/-- Steps in a row, where no step changes what a later one asks for. -/
theorem foldlM {f : State → Item → Except E State} {g : State → Item → Except F State}
    {P : State → Item → Prop}
    (h : ∀ state item, Stricter (P state item) (f state item) (g state item))
    (hkept : items.Pairwise fun item later => ∀ state next, g state item = .ok next →
      (P next later ↔ P state later)) (state : State) :
    Stricter (∀ item ∈ items, P state item) (items.foldlM f state) (items.foldlM g state) := by
  induction items generalizing state with
  | nil => exact (ok state).iff (by simp)
  | cons item items ih =>
    obtain ⟨hfirst, hrest⟩ := pairwise_cons.mp hkept
    refine ((h state item).bind fun next hnext => (ih hrest next).iff ?_).iff
      (by rw [forall_mem_cons])
    exact forall₂_congr fun later hlater => hfirst later hlater state next hnext

end Stricter

end Catamorphic
