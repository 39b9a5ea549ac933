import Mathlib.Data.List.Forall2

/-!
# First fit

Items are taken one after the other by the first slot that has room for them. What is taken changes
the slot; what no slot has room for is left over.
-/

namespace Catamorphic.FirstFit

open List

variable {Slot Item : Type} (fit : Slot → Item → Option Slot)

/-- The slots after the first with room for an item took it. -/
def place : List Slot → Item → Option (List Slot)
  | [], _ => none
  | slot :: slots, item =>
    match fit slot item with
    | some filled => some (filled :: slots)
    | none => (place slots item).map fun slots => slot :: slots

/-- The slots after all items, and the items left over. -/
def pack : List Slot → List Item → List Slot × List Item
  | slots, [] => (slots, [])
  | slots, item :: items =>
    match place fit slots item with
    | some filled => pack filled items
    | none => ((pack slots items).1, item :: (pack slots items).2)

variable {fit} {slots : List Slot} {item : Item} {items : List Item}

/-- An item is taken by the first slot that has room for it. -/
theorem place_eq_some {filled : List Slot} (h : place fit slots item = some filled) :
    ∃ before slot more later, slots = before ++ slot :: later ∧
      (∀ slot ∈ before, fit slot item = none) ∧ fit slot item = some more ∧
      filled = before ++ more :: later := by
  induction slots generalizing filled with
  | nil => cases h
  | cons slot slots ih =>
    rw [place] at h
    rcases hfit : fit slot item with _ | more
    · rw [hfit] at h
      obtain ⟨rest, hrest, rfl⟩ := Option.map_eq_some_iff.mp h
      obtain ⟨before, other, more, later, rfl, hbefore, hmore, rfl⟩ := ih hrest
      exact ⟨slot :: before, other, more, later, rfl,
        forall_mem_cons.mpr ⟨hfit, hbefore⟩, hmore, rfl⟩
    · rw [hfit] at h
      cases h
      exact ⟨[], slot, more, slots, rfl, nofun, hfit, rfl⟩

/--
**Every item is taken by one slot or left over**, and a slot takes what it is given one after the
other.
-/
theorem pack_given (slots : List Slot) (items : List Item) :
    ∃ given : List (List Item), given.length = slots.length ∧
      (given.flatten ++ (pack fit slots items).2).Perm items ∧
      ∀ pair ∈ slots.zip given, ∃ filled, pair.2.foldlM fit pair.1 = some filled := by
  induction items generalizing slots with
  | nil =>
    refine ⟨slots.map fun _ => [], length_map _, ?_, fun pair hpair => ?_⟩
    · rw [pack, append_nil, flatten_eq_nil_iff.mpr fun _ h => by simp_all]
    · rw [zip_map_right, mem_map] at hpair
      obtain ⟨other, -, rfl⟩ := hpair
      exact ⟨_, rfl⟩
  | cons item items ih =>
    rw [pack]
    rcases hplace : place fit slots item with _ | filled
    · obtain ⟨given, hlength, hperm, hall⟩ := ih slots
      exact ⟨given, hlength, perm_middle.trans (hperm.cons item), hall⟩
    · -- the slot that took it was given it first
      obtain ⟨before, slot, more, later, rfl, -, hmore, rfl⟩ := place_eq_some hplace
      obtain ⟨given, hlength, hperm, hall⟩ := ih (before ++ more :: later)
      have hsplit : given = given.take before.length ++ given.drop before.length :=
        (take_append_drop _ _).symm
      have hbefore : (given.take before.length).length = before.length := by
        rw [length_take, hlength, length_append]
        omega
      obtain ⟨one, rest, hone⟩ : ∃ one rest, given.drop before.length = one :: rest := by
        refine exists_cons_of_length_pos ?_
        rw [length_drop, hlength, length_append, length_cons]
        omega
      rw [hone] at hsplit
      generalize given.take before.length = start at hsplit hbefore
      subst hsplit
      rw [zip_append hbefore.symm, zip_cons_cons] at hall
      refine ⟨start ++ (item :: one) :: rest, ?_, ?_, ?_⟩
      · rw [length_append, length_cons] at hlength ⊢
        rw [hlength, length_append, length_append, length_cons, length_cons]
      · rw [flatten_append, flatten_cons, append_assoc] at hperm ⊢
        exact perm_middle.trans (hperm.cons item)
      · rw [zip_append hbefore.symm, zip_cons_cons]
        intro pair hpair
        rcases mem_append.mp hpair with h | h
        · exact hall pair (mem_append_left _ h)
        · rcases mem_cons.mp h with rfl | h
          · rw [foldlM_cons, hmore]
            exact hall (more, one) (mem_append_right _ (.head _))
          · exact hall pair (mem_append_right _ (.tail _ h))

end Catamorphic.FirstFit
