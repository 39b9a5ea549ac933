import Mathlib.Data.List.Forall2
import Mathlib.Data.List.Nodup

/-!
# Maps as lists

A map is a list of keys with their values, each key once. Also here: keys without repetitions, and
what a list of fallible steps says where all of them succeed.
-/

namespace Catamorphic.Maps

open List

section

variable {Key Value : Type}

/-- No two values are of one key. -/
def Distinct (map : List (Key × Value)) : Prop := map.Pairwise fun a b => a.1 ≠ b.1

variable [DecidableEq Key] {map : List (Key × Value)} {key : Key} {value : Value}

/-- `map.get(key)` -/
def valueAt (map : List (Key × Value)) (key : Key) : Option Value :=
  (map.find? fun entry => entry.1 = key).map Prod.snd

theorem valueAt_cons (first : Key × Value) : valueAt (first :: map) key =
    if first.1 = key then some first.2 else valueAt map key := by
  by_cases h : first.1 = key <;> simp [valueAt, h]

theorem mem_of_valueAt (h : valueAt map key = some value) : (key, value) ∈ map := by
  obtain ⟨entry, hfind, rfl⟩ := Option.map_eq_some_iff.mp h
  obtain rfl : entry.1 = key := by simpa using List.find?_some hfind
  exact mem_of_find?_eq_some hfind

theorem valueAt_of_mem (hdistinct : Distinct map) (h : (key, value) ∈ map) :
    valueAt map key = some value := by
  induction map with
  | nil => cases h
  | cons first map ih =>
    have hpair := pairwise_cons.mp hdistinct
    rw [valueAt_cons]
    rcases mem_cons.mp h with rfl | h
    · exact if_pos rfl
    · rw [if_neg (hpair.1 _ h), ih hpair.2 h]

theorem valueAt_eq_none (h : ∀ value, (key, value) ∉ map) : valueAt map key = none := by
  rcases hvalue : valueAt map key with _ | value
  · rfl
  · exact absurd (mem_of_valueAt hvalue) (h value)

theorem valueAt_ne_none_iff : valueAt map key ≠ none ↔ key ∈ map.map Prod.fst := by
  rw [ne_eq, valueAt, Option.map_eq_none_iff, List.find?_eq_none, mem_map]
  simp only [decide_eq_true_eq, not_forall, not_not, exists_prop]

/-- `map.set(key, value)` -/
def setAt (map : List (Key × Value)) (key : Key) (value : Value) : List (Key × Value) :=
  if map.any fun entry => entry.1 = key then
    map.map fun entry => if entry.1 = key then (key, value) else entry
  else map ++ [(key, value)]

theorem valueAt_replaced {other : Key} :
    valueAt (map.map fun entry => if entry.1 = key then (key, value) else entry) other =
      if key = other then (valueAt map key).map fun _ => value else valueAt map other := by
  induction map with
  | nil => simp [valueAt]
  | cons first map ih =>
    rw [map_cons, valueAt_cons, valueAt_cons, valueAt_cons, ih]
    split_ifs <;> simp_all

theorem valueAt_append_one {other : Key} : valueAt (map ++ [(key, value)]) other =
    (valueAt map other).or (if key = other then some value else none) := by
  induction map with
  | nil =>
    split_ifs <;> simp_all [valueAt]
  | cons first map ih =>
    rw [cons_append, valueAt_cons, valueAt_cons, ih]
    split_ifs <;> simp_all

theorem valueAt_setAt {other : Key} : valueAt (setAt map key value) other =
    if key = other then some value else valueAt map other := by
  unfold setAt
  split
  · next hany =>
    rw [valueAt_replaced]
    obtain ⟨entry, hentry, hkey⟩ := any_eq_true.mp hany
    have hmem : key ∈ map.map Prod.fst :=
      of_decide_eq_true hkey ▸ mem_map_of_mem hentry
    obtain ⟨found, hfound⟩ := Option.ne_none_iff_exists'.mp (valueAt_ne_none_iff.mpr hmem)
    rw [hfound, Option.map_some]
  · next hany =>
    have hnone : valueAt map key = none := valueAt_eq_none fun value hmem =>
      hany (any_eq_true.mpr ⟨_, hmem, decide_eq_true rfl⟩)
    rw [valueAt_append_one]
    split_ifs with hother
    · rw [← hother, hnone, Option.none_or]
    · rw [Option.or_none]

/-- A value that is set anew is the one that its key has already. -/
theorem valueAt_setAt_iff {other : Key} {given : Value} {had : Prop}
    (hmap : valueAt map other = some given ↔ had) (hsame : had → key = other → value = given) :
    valueAt (setAt map key value) other = some given ↔ had ∨ (key = other ∧ value = given) := by
  rw [valueAt_setAt]
  split
  · next heq =>
    constructor
    · exact fun h => .inr ⟨heq, Option.some.inj h⟩
    · rintro (h | ⟨-, h⟩)
      · rw [hsame h heq]
      · rw [h]
  · next hne =>
    rw [hmap]
    exact ⟨.inl, fun h => h.resolve_right fun h => hne h.1⟩

theorem of_mem_setAt {entry : Key × Value} (h : entry ∈ setAt map key value) :
    entry = (key, value) ∨ entry ∈ map := by
  rw [setAt] at h
  split at h
  · obtain ⟨other, hother, rfl⟩ := mem_map.mp h
    split
    · exact .inl rfl
    · exact .inr hother
  · rcases mem_append.mp h with h | h
    · exact .inr h
    · exact .inl (mem_singleton.mp h)

theorem distinct_setAt (h : Distinct map) : Distinct (setAt map key value) := by
  unfold setAt
  split
  · refine List.Pairwise.map _ (fun a b hne => ?_) h
    split_ifs <;> simp_all
  · next hany =>
    refine pairwise_append.mpr
      ⟨h, pairwise_singleton _ _, fun entry hentry last hlast => ?_⟩
    obtain rfl := mem_singleton.mp hlast
    exact fun heq => hany (any_eq_true.mpr ⟨entry, hentry, decide_eq_true heq⟩)

theorem valueAt_foldl_setAt {Given : Type} {given : List (Key × Given)}
    (hdistinct : Distinct given) {value : Key → Given → Value} {start : List (Key × Value)} :
    valueAt (given.foldl (fun map entry => setAt map entry.1 (value entry.1 entry.2)) start) key =
      ((valueAt given key).map (value key)).or (valueAt start key) := by
  induction given generalizing start with
  | nil => rfl
  | cons first given ih =>
    have hpair := pairwise_cons.mp hdistinct
    rw [foldl_cons, ih hpair.2, valueAt_cons, valueAt_setAt]
    by_cases heq : first.1 = key
    · subst heq
      rw [if_pos rfl, if_pos rfl, valueAt_eq_none fun value hmem => hpair.1 _ hmem rfl]
      rfl
    · rw [if_neg heq, if_neg heq]

theorem distinct_foldl_setAt {Given : Type} {given : List (Key × Given)}
    {value : Key → Given → Value} {start : List (Key × Value)} (h : Distinct start) :
    Distinct (given.foldl (fun map entry => setAt map entry.1 (value entry.1 entry.2)) start) := by
  induction given generalizing start with
  | nil => exact h
  | cons first given ih => exact ih (distinct_setAt h)

omit [DecidableEq Key] in
theorem distinct_iff_nodup : Distinct map ↔ (map.map Prod.fst).Nodup :=
  pairwise_map.symm

end

theorem nodup_eraseDups {Key : Type} [BEq Key] [LawfulBEq Key] (keys : List Key) :
    keys.eraseDups.Nodup := by
  induction hlength : keys.length using Nat.strongRecOn generalizing keys with
  | ind n ih =>
    cases keys with
    | nil => exact nodup_nil
    | cons key keys =>
      rw [eraseDups_cons, nodup_cons, mem_eraseDups]
      refine ⟨fun hmem => ?_, ih _ ?_ _ rfl⟩
      · simpa using (mem_filter.mp hmem).2
      · rw [← hlength, length_cons, Nat.lt_succ_iff]
        exact length_filter_le ..

theorem eraseDups_map {Key Other : Type} [BEq Key] [LawfulBEq Key] [BEq Other] [LawfulBEq Other]
    {key : Key → Other} (hkey : Function.Injective key) (keys : List Key) :
    (keys.map key).eraseDups = keys.eraseDups.map key := by
  induction hlength : keys.length using Nat.strongRecOn generalizing keys with
  | ind n ih =>
    cases keys with
    | nil => rfl
    | cons first keys =>
      rw [map_cons, eraseDups_cons, eraseDups_cons, map_cons, filter_map]
      have hfilter : (fun other => !other == key first) ∘ key = fun other => !other == first := by
        funext other
        rw [Function.comp_apply, Bool.not_inj_iff, Bool.eq_iff_iff, beq_iff_eq, beq_iff_eq,
          hkey.eq_iff]
      rw [hfilter, ih _ ?_ _ rfl]
      rw [← hlength, length_cons, Nat.lt_succ_iff]
      exact length_filter_le ..

section

variable {Item Result Failure : Type} {f : Item → Except Failure Result} {items : List Item}

theorem mapM_ok {results : List Result} (h : items.mapM f = .ok results) :
    List.Forall₂ (fun item result => f item = .ok result) items results := by
  induction items generalizing results with
  | nil =>
    obtain rfl := Except.ok.inj h
    exact .nil
  | cons item items ih =>
    rw [mapM_cons] at h
    rcases hitem : f item with error | result
    · rw [hitem] at h
      cases h
    · rcases hitems : items.mapM f with error | rest
      · rw [hitem, hitems] at h
        cases h
      · rw [hitem, hitems] at h
        obtain rfl := Except.ok.inj h
        exact .cons hitem (ih hitems)

theorem mapM_of_ok (h : ∀ item ∈ items, ∃ result, f item = .ok result) :
    ∃ results, items.mapM f = .ok results := by
  induction items with
  | nil => exact ⟨[], rfl⟩
  | cons item items ih =>
    obtain ⟨result, hitem⟩ := h item (.head _)
    obtain ⟨rest, hrest⟩ := ih (forall_mem_cons.mp h).2
    exact ⟨result :: rest, by rw [mapM_cons, hitem, hrest]; rfl⟩

theorem filterM_none {p : Item → Except Failure Bool} (h : ∀ item ∈ items, p item = .ok false) :
    items.filterM p = .ok [] := by
  have haux : items.filterAuxM p [] = .ok [] := by
    induction items with
    | nil => rfl
    | cons item items ih =>
      rw [List.filterAuxM, h item (.head _)]
      exact ih (forall_mem_cons.mp h).2
  rw [List.filterM, haux]
  rfl

theorem bind_ok {Found Given : Type} {found : Except Failure Found}
    {next : Found → Except Failure Given} {given : Given} (h : found >>= next = .ok given) :
    ∃ value, found = .ok value ∧ next value = .ok given := by
  cases found with
  | error failure => cases h
  | ok value => exact ⟨value, rfl, h⟩

/-- Steps in a row that each take an item's result come to the results taken in a row. -/
theorem foldlM_ok {State : Type} {step : State → Item → Result → State} {start out : State}
    (h : items.foldlM (fun state item => do
      let result ← f item
      return step state item result) start = .ok out) :
    ∃ pairs : List (Item × Result), pairs.map Prod.fst = items ∧
      (∀ pair ∈ pairs, f pair.1 = .ok pair.2) ∧
      pairs.foldl (fun state pair => step state pair.1 pair.2) start = out := by
  induction items generalizing start with
  | nil => exact ⟨[], rfl, fun pair hpair => absurd hpair not_mem_nil, Except.ok.inj h⟩
  | cons item items ih =>
    rw [foldlM_cons] at h
    rcases hitem : f item with error | result
    · rw [hitem] at h
      cases h
    · rw [hitem] at h
      obtain ⟨pairs, hitems, hpairs, hout⟩ := ih h
      refine ⟨(item, result) :: pairs, by rw [map_cons, hitems], ?_, hout⟩
      rintro pair (_ | ⟨_, hpair⟩)
      · exact hitem
      · exact hpairs pair hpair

end

section

variable {Item Result : Type} {R : Item → Result → Prop} {items : List Item}
  {results : List Result}

theorem exists_of_forall₂ (h : List.Forall₂ R items results) {item : Item} (hmem : item ∈ items) :
    ∃ result ∈ results, R item result := by
  induction h with
  | nil => cases hmem
  | cons hfirst _ ih =>
    rcases mem_cons.mp hmem with rfl | hmem
    · exact ⟨_, .head _, hfirst⟩
    · obtain ⟨result, hresult, hR⟩ := ih hmem
      exact ⟨result, mem_cons_of_mem _ hresult, hR⟩

theorem map_eq_of_forall₂ {g : Result → Item} (h : List.Forall₂ R items results)
    (hg : ∀ item result, R item result → g result = item) : results.map g = items := by
  induction h with
  | nil => rfl
  | cons hfirst _ ih => rw [map_cons, hg _ _ hfirst, ih]

end

/-- One more item has what is asked for, or one of those before. -/
theorem exists_mem_append {Item : Type} {P : Item → Prop} {items : List Item} {item : Item} :
    (∃ x ∈ items ++ [item], P x) ↔ (∃ x ∈ items, P x) ∨ P item := by
  simp only [mem_append, mem_singleton, or_and_right, exists_or, exists_eq_left]

/-- Results that are handed over, each to come to itself. -/
theorem mapM_back {Result Again Failure : Type} {g : Again → Except Failure Result}
    {back : Result → Again} {results : List Result}
    (h : ∀ result ∈ results, g (back result) = .ok result) :
    (results.map back).mapM g = .ok results := by
  induction results with
  | nil => rfl
  | cons result results ih =>
    rw [map_cons, mapM_cons, h result (.head _), ih (forall_mem_cons.mp h).2]
    rfl

theorem mapM_again {Item Result Again Failure : Type} {f : Item → Except Failure Result}
    {g : Again → Except Failure Result} {back : Result → Again} {items : List Item}
    {results : List Result} (h : items.mapM f = .ok results)
    (hagain : ∀ item ∈ items, ∀ result, f item = .ok result → g (back result) = .ok result) :
    (results.map back).mapM g = .ok results := by
  refine mapM_back fun result hresult => ?_
  obtain ⟨item, hitem, hf⟩ := exists_of_forall₂ (mapM_ok h).flip hresult
  exact hagain item hitem result hf

theorem map_ok {Result Value Failure : Type} {found : Except Failure Result} {f : Result → Value}
    {value : Value} (h : found.map f = .ok value) :
    ∃ result, found = .ok result ∧ f result = value := by
  cases found with
  | error failure => cases h
  | ok result => exact ⟨result, rfl, Except.ok.inj h⟩

theorem foldlM_congr {State Item Failure : Type} {f g : State → Item → Except Failure State}
    {items : List Item} (h : ∀ item ∈ items, ∀ state, f state item = g state item)
    (state : State) : items.foldlM f state = items.foldlM g state := by
  induction items generalizing state with
  | nil => rfl
  | cons item items ih =>
    rw [foldlM_cons, foldlM_cons, h item (.head _)]
    exact bind_congr fun next => ih (forall_mem_cons.mp h).2 next

theorem mapM_congr {Item Result Failure : Type} {f g : Item → Except Failure Result}
    {items : List Item} (h : ∀ item ∈ items, f item = g item) : items.mapM f = items.mapM g := by
  induction items with
  | nil => rfl
  | cons item items ih =>
    rw [mapM_cons, mapM_cons, h item (.head _), ih (forall_mem_cons.mp h).2]

end Catamorphic.Maps
