import Mathlib.Data.List.Perm.Subperm
import Mathlib.Tactic.Linarith
import Catamorphic.Lib.Decimal
import Catamorphic.Workers.DemandMachines

/-!
# What a rule on demand calls for

The machines kept are those in use and the most recently idle up to the least; the new ones are
named apart from them and from one another. Neither is more than the rule's bounds and the work
that waits ask for, and no machine is counted on for more than it has free.
-/

namespace Catamorphic.Workers.Demand

open Maps List Option

/-! ## Which machines are kept -/

section

variable (demand : MachineDemand) (loads : List (Name × MachineLoad))

/-- Live, or seen within the time that a machine has to enroll. -/
def Seen (load : MachineLoad) : Prop :=
  load.live.isSome ∨ load.unseenForMs < (demand.enrollMinutes * 60000 : ℚ)

/-- It holds work, has never connected, or was idle for less than `idleMinutes`. -/
def InUse (load : MachineLoad) : Prop :=
  0 < load.holding ∨ load.neverConnected ∨ load.idleForMs < (demand.idleMinutes * 60000 : ℚ)

instance (load : MachineLoad) : Decidable (Seen demand load) := inferInstanceAs (Decidable (_ ∨ _))

instance (load : MachineLoad) : Decidable (InUse demand load) :=
  inferInstanceAs (Decidable (_ ∨ _ ∨ _))

/-- A machine that is kept in any case. -/
def Protected (machine : ProvisionedMachine) : Prop :=
  machine.state = .pending ∨ (machine.state = .enrolled ∧
    ∃ load ∈ valueAt loads machine.name, Seen demand load ∧ InUse demand load)

/-- A machine that is still enrolling, or connecting. -/
def Coming (machine : ProvisionedMachine) : Prop :=
  machine.state = .pending ∨ (machine.state = .enrolled ∧
    ∃ load ∈ valueAt loads machine.name, Seen demand load ∧ load.holding = 0 ∧ load.neverConnected)

instance (machine : ProvisionedMachine) : Decidable (Protected demand loads machine) :=
  inferInstanceAs (Decidable (_ ∨ (_ ∧ _)))

instance (machine : ProvisionedMachine) : Decidable (Coming demand loads machine) :=
  inferInstanceAs (Decidable (_ ∨ (_ ∧ _)))

/-- How long a machine that is in use for nothing has been idle. -/
def idleFor (machine : ProvisionedMachine) : Option ℚ :=
  if machine.state = .enrolled then
    (valueAt loads machine.name).bind fun load =>
      if Seen demand load ∧ ¬ InUse demand load then some load.idleForMs else none
  else none

/-- What one turn of the loop makes of a machine. -/
structure Kept (state : Keeping) (machine : ProvisionedMachine) (next : Keeping) : Prop where
  kept : next.kept = state.kept ++ if Protected demand loads machine then [machine] else []
  coming : next.coming = state.coming + if Coming demand loads machine then 1 else 0
  idle : next.idle = state.idle ++
    ((idleFor demand loads machine).map fun idle => (machine, idle)).toList

theorem keepMachine_kept (state : Keeping) (machine : ProvisionedMachine) :
    Kept demand loads state machine (keepMachine demand loads state machine) := by
  unfold keepMachine
  by_cases hpending : machine.state = .pending
  · rw [if_pos hpending]
    have hidle : idleFor demand loads machine = none := if_neg (by rw [hpending]; decide)
    exact ⟨by rw [if_pos (.inl hpending)], by rw [if_pos (.inl hpending)], by rw [hidle]; simp⟩
  · rw [if_neg hpending]
    by_cases henrolled : machine.state = .enrolled
    · rw [if_neg (not_not.mpr henrolled)]
      have hprotected : Protected demand loads machine ↔ ∃ load ∈ valueAt loads machine.name,
          Seen demand load ∧ InUse demand load :=
        ⟨fun h => (h.resolve_left hpending).2, fun h => .inr ⟨henrolled, h⟩⟩
      have hcoming : Coming demand loads machine ↔ ∃ load ∈ valueAt loads machine.name,
          Seen demand load ∧ load.holding = 0 ∧ load.neverConnected :=
        ⟨fun h => (h.resolve_left hpending).2, fun h => .inr ⟨henrolled, h⟩⟩
      have hidle : idleFor demand loads machine = (valueAt loads machine.name).bind fun load =>
          if Seen demand load ∧ ¬ InUse demand load then some load.idleForMs else none :=
        if_pos henrolled
      rcases hload : valueAt loads machine.name with _ | load
      · rw [hload] at hprotected hcoming hidle
        refine ⟨?_, ?_, ?_⟩
        · rw [if_neg (by simp [hprotected]), append_nil]
        · rw [if_neg (by simp [hcoming])]
          rfl
        · rw [hidle]
          simp
      · rw [hload] at hprotected hcoming hidle
        simp only [mem_some, exists_eq_left'] at hprotected hcoming
        rw [bind_some] at hidle
        have hlost : (load.live.isNone &&
            decide ((demand.enrollMinutes * 60000 : ℚ) ≤ load.unseenForMs)) = true ↔
              ¬ Seen demand load := by
          rw [Seen, not_or, not_lt, Bool.and_eq_true, decide_eq_true_eq, isNone_iff_eq_none,
            not_isSome_iff_eq_none]
        dsimp only
        split
        · next h =>
          have hseen := hlost.mp h
          refine ⟨?_, ?_, ?_⟩
          · rw [if_neg (fun h => hseen (hprotected.mp h).1), append_nil]
          · rw [if_neg (fun h => hseen (hcoming.mp h).1), Nat.add_zero]
          · rw [hidle, if_neg (fun h => hseen h.1)]
            simp
        · next h =>
          have hseen : Seen demand load := not_not.mp fun hnot => h (hlost.mpr hnot)
          split
          · next hholding =>
            have huse : InUse demand load := .inl hholding
            refine ⟨?_, ?_, ?_⟩
            · rw [if_pos (hprotected.mpr ⟨hseen, huse⟩)]
            · rw [if_neg fun h => (Nat.ne_of_gt hholding) (hcoming.mp h).2.1, Nat.add_zero]
            · rw [hidle, if_neg (fun h => h.2 huse)]
              simp
          · next hholding =>
            split
            · next hnever =>
              have huse : InUse demand load := .inr (.inl hnever)
              refine ⟨?_, ?_, ?_⟩
              · rw [if_pos (hprotected.mpr ⟨hseen, huse⟩)]
              · rw [if_pos (hcoming.mpr ⟨hseen, Nat.eq_zero_of_not_pos hholding, hnever⟩)]
              · rw [hidle, if_neg (fun h => h.2 huse)]
                simp
            · next hconnected =>
              have hnot : ¬ Coming demand loads machine := fun h => hconnected (hcoming.mp h).2.2
              split
              · next hshort =>
                have huse : InUse demand load := .inr (.inr hshort)
                refine ⟨?_, ?_, ?_⟩
                · rw [if_pos (hprotected.mpr ⟨hseen, huse⟩)]
                · rw [if_neg hnot, Nat.add_zero]
                · rw [hidle, if_neg (fun h => h.2 huse)]
                  simp
              · next hlong =>
                have huse : ¬ InUse demand load := by
                  rintro (h | h | h)
                  · exact hholding h
                  · exact hconnected h
                  · exact hlong h
                refine ⟨?_, ?_, ?_⟩
                · rw [if_neg (fun h => huse (hprotected.mp h).2), append_nil]
                · rw [if_neg hnot, Nat.add_zero]
                · rw [hidle, if_pos ⟨hseen, huse⟩]
                  rfl
    · rw [if_pos henrolled]
      have hprotected : ¬ Protected demand loads machine :=
        fun h => h.elim hpending fun h => henrolled h.1
      have hcoming : ¬ Coming demand loads machine :=
        fun h => h.elim hpending fun h => henrolled h.1
      have hidle : idleFor demand loads machine = none := if_neg henrolled
      refine ⟨?_, ?_, ?_⟩
      · rw [if_neg hprotected, append_nil]
      · rw [if_neg hcoming, Nat.add_zero]
      · rw [hidle]
        simp

/-- An idle machine, with how long it has been idle. -/
def idleEntry (machine : ProvisionedMachine) : Option (ProvisionedMachine × ℚ) :=
  (idleFor demand loads machine).map fun idle => (machine, idle)

/-- **What the loop over a rule's own machines makes of them.** -/
theorem foldl_keepMachine (own : List ProvisionedMachine) (state : Keeping) :
    own.foldl (keepMachine demand loads) state =
      { kept := state.kept ++ own.filter fun machine => decide (Protected demand loads machine)
        coming := state.coming + own.countP fun machine => decide (Coming demand loads machine)
        idle := state.idle ++ own.filterMap (idleEntry demand loads) } := by
  induction own generalizing state with
  | nil => simp
  | cons machine own ih =>
    obtain ⟨hkept, hcoming, hidle⟩ := keepMachine_kept demand loads state machine
    rw [foldl_cons, ih, hkept, hcoming, hidle, filter_cons, countP_cons,
      filterMap_cons, ← idleEntry]
    congr 1
    · split <;> simp_all
    · split
      · simp_all
        omega
      · simp_all
    · rcases idleEntry demand loads machine with _ | entry <;> simp

theorem topUp_eq (kept : List ProvisionedMachine) (idle : List (ProvisionedMachine × ℚ)) :
    topUp demand kept idle =
      kept ++ (idle.take (demand.min - kept.length)).map Prod.fst := by
  induction idle generalizing kept with
  | nil => simp [topUp]
  | cons entry idle ih =>
    rw [topUp]
    split
    · next h => rw [Nat.sub_eq_zero_of_le h, take_zero, map_nil, append_nil]
    · next h =>
      obtain ⟨n, hn⟩ := Nat.exists_eq_succ_of_ne_zero (Nat.sub_ne_zero_of_lt (Nat.lt_of_not_le h))
      have hrest : demand.min - (kept ++ [entry.1]).length = n := by
        rw [length_append, length_singleton]
        omega
      rw [ih, hn, hrest, take_succ_cons, map_cons, append_assoc]
      rfl

end

/-! ## What is packed -/

/-- A machine has what the work on it is charged. -/
structure Within (room : Room) (charges : List Charge) : Prop where
  workspaces : (charges.length : Int) ≤ room.workspaces
  cpuMillis : ∀ amount ∈ room.cpuMillis, (charges.map Charge.cpuMillis).sum ≤ amount
  memoryMb : ∀ amount ∈ room.memoryMb, (charges.map Charge.memoryMb).sum ≤ amount

theorem not_short {amount : Option ℚ} {needed : ℚ} (h : short amount needed = false) :
    ∀ bound ∈ amount, needed ≤ bound := by
  rintro bound rfl
  simpa [short] using h

theorem roomFor_some {room : Room} {defaults : Defaults} {wait : DemandWait} {charged : Charge}
    (h : roomFor room defaults wait = some charged) :
    charged = chargeOf defaults wait ∧ Within room [charged] := by
  unfold roomFor at h
  dsimp only at h
  split at h
  · cases h
  · next hworkspaces =>
    split at h
    · cases h
    · next hcpu =>
      split at h
      · cases h
      · next hmemory =>
        cases h
        refine ⟨rfl, ⟨?_, ?_, ?_⟩⟩
        · rw [length_singleton]
          omega
        · rw [map_singleton, sum_singleton]
          exact not_short (Bool.eq_false_iff.mpr hcpu)
        · rw [map_singleton, sum_singleton]
          exact not_short (Bool.eq_false_iff.mpr hmemory)

theorem Within.cons {room : Room} {charged : Charge} {charges : List Charge}
    (h : Within (room.less charged) charges) : Within room (charged :: charges) := by
  refine ⟨?_, fun amount hamount => ?_, fun amount hamount => ?_⟩
  · have hleft : (charges.length : Int) ≤ room.workspaces - 1 := h.workspaces
    rw [length_cons]
    omega
  · have := h.cpuMillis (amount - charged.cpuMillis) (by
      rw [Room.less, mem_def.mp hamount]
      rfl)
    rw [map_cons, sum_cons]
    linarith
  · have := h.memoryMb (amount - charged.memoryMb) (by
      rw [Room.less, mem_def.mp hamount]
      rfl)
    rw [map_cons, sum_cons]
    linarith

/-- **What a machine is given is within its room.** -/
theorem foldlM_fit {slot filled : Slot} {given : List DemandWait}
    (h : given.foldlM Slot.fit slot = some filled) (hne : given ≠ []) :
    Within slot.room (given.map (chargeOf slot.defaults)) := by
  induction given generalizing slot with
  | nil => exact absurd rfl hne
  | cons wait given ih =>
    obtain ⟨more, hmore, hrest⟩ := bind_eq_some_iff.mp h
    obtain ⟨charged, hcharged, rfl⟩ := map_eq_some_iff.mp hmore
    obtain ⟨rfl, hwithin⟩ := roomFor_some hcharged
    by_cases hnil : given = []
    · rw [hnil]
      exact hwithin
    · exact (ih hrest hnil).cons

/-- Each piece of work is on one machine, within its room, or left over. -/
def Packed (slots : List Slot) (waits left : List DemandWait) : Prop :=
  ∃ given : List (List DemandWait), given.length = slots.length ∧
    (given.flatten ++ left).Perm waits ∧
    ∀ pair ∈ slots.zip given, pair.2 ≠ [] →
      Within pair.1.room (pair.2.map (chargeOf pair.1.defaults))

theorem pack_packed (slots : List Slot) (waits : List DemandWait) :
    Packed slots waits (FirstFit.pack Slot.fit slots waits).2 := by
  obtain ⟨given, hlength, hperm, hall⟩ := FirstFit.pack_given slots waits
  refine ⟨given, hlength, hperm, fun pair hpair hne => ?_⟩
  obtain ⟨filled, hfilled⟩ := hall pair hpair
  exact foldlM_fit hfilled hne

/-! ## New machines -/

theorem demandName_inj {base : Name} {i j : Nat} (h : demandName base i = demandName base j) :
    i = j :=
  Decimal.toString_inj (append_cancel_left h)

theorem newMachines_names {desired : Name → Option DemandWait → DesiredMachine}
    (hname : ∀ name waiting, (desired name waiting).name = name) (base : Name) (taken : List Name)
    (turns add index : Nat) (unmet : List DemandWait) :
    (newMachines desired base taken turns add index unmet).map DesiredMachine.name =
      (((List.range' index turns).filter fun i => !taken.contains (demandName base i)).take add).map
        (demandName base) := by
  induction turns generalizing add index unmet with
  | zero => simp [newMachines]
  | succ turns ih =>
    cases add with
    | zero => simp [newMachines]
    | succ add =>
      rw [newMachines, range'_succ, filter_cons]
      split
      · next h =>
        rw [ih, if_neg (by simpa using h)]
      · next h =>
        rw [map_cons, ih, hname, if_pos (by simpa using h), take_succ_cons,
          map_cons]

theorem length_free {base : Name} {taken : List Name} (index turns : Nat) :
    turns ≤ taken.length +
      ((List.range' index turns).filter fun i => !taken.contains (demandName base i)).length := by
  have hall := length_eq_length_filter_add (l := List.range' index turns)
    fun i => taken.contains (demandName base i)
  rw [length_range'] at hall
  have htaken : ((List.range' index turns).filter fun i =>
      taken.contains (demandName base i)).length ≤ taken.length := by
    rw [← length_map (f := demandName base)]
    refine (subperm_of_subset ?_ fun name hname => ?_).length_le
    · exact ((nodup_range' ).filter _).map fun _ _ => demandName_inj
    · obtain ⟨i, hi, rfl⟩ := mem_map.mp hname
      exact contains_iff_mem.mp (mem_filter.mp hi).2
  omega

/-! ## What a rule on demand calls for -/

section

variable (digest : Name → Nat → Name) (args : DemandArgs)

/-- The machines called for: those kept, and new ones. -/
structure Demanded (kept : List ProvisionedMachine) (new : List DesiredMachine) : Prop where
  parts : demandMachines digest args =
    kept.map (fun machine => args.desired machine.name none) ++ new
  names : ((demandMachines digest args).map DesiredMachine.name).Nodup
  own : ∀ machine ∈ kept, machine ∈ args.own digest
  inUse : ∀ machine ∈ args.own digest, Protected args.demand args.loads machine → machine ∈ kept
  /-- The others kept are the most recently idle, up to the least that a rule keeps. -/
  idle : ∀ machine ∈ kept, ¬ Protected args.demand args.loads machine →
    kept.length ≤ args.demand.min ∧
      ∃ idle ∈ idleFor args.demand args.loads machine,
        ∀ other ∈ args.own digest, other ∉ kept →
          ∀ longer ∈ idleFor args.demand args.loads other, idle ≤ longer
  least : ∀ machine ∈ args.own digest, (idleFor args.demand args.loads machine).isSome →
    machine ∉ kept → args.demand.min ≤ kept.length
  most : args.demand.max < kept.length + args.before digest + new.length →
    args.demand.max < kept.length + args.before digest
  packed : Packed (slotsOf args.loads kept) args.waits (args.uncovered digest)
  added : new.length = if args.stalled then 0 else
    min (args.demand.max - (kept.length + args.before digest))
      (max ((args.uncovered digest).length - (args.own digest).countP fun machine =>
        decide (Coming args.demand args.loads machine)) (args.demand.min - kept.length))

end

variable {digest : Name → Nat → Name} {args : DemandArgs}

theorem keeping_eq : args.keeping digest =
    { kept := (args.own digest).filter fun machine =>
        decide (Protected args.demand args.loads machine)
      coming := (args.own digest).countP fun machine =>
        decide (Coming args.demand args.loads machine)
      idle := (args.own digest).filterMap (idleEntry args.demand args.loads) } := by
  rw [DemandArgs.keeping, foldl_keepMachine]
  simp only [nil_append, Nat.zero_add]

/-- The idle machines, the most recently idle first. -/
def sortedIdle (digest : Name → Nat → Name) (args : DemandArgs) :
    List (ProvisionedMachine × ℚ) :=
  ((args.own digest).filterMap (idleEntry args.demand args.loads)).insertionSort
    fun left right => left.2 ≤ right.2

theorem kept_eq : args.kept digest =
    ((args.own digest).filter fun machine => decide (Protected args.demand args.loads machine)) ++
      ((sortedIdle digest args).take (args.demand.min - ((args.own digest).filter fun machine =>
        decide (Protected args.demand args.loads machine)).length)).map Prod.fst := by
  rw [DemandArgs.kept, topUp_eq, keeping_eq]
  rfl

theorem mem_sortedIdle {entry : ProvisionedMachine × ℚ} : entry ∈ sortedIdle digest args ↔
    entry.1 ∈ args.own digest ∧ idleFor args.demand args.loads entry.1 = some entry.2 := by
  rw [sortedIdle, mem_insertionSort, mem_filterMap]
  constructor
  · rintro ⟨machine, hmachine, hentry⟩
    obtain ⟨idle, hidle, rfl⟩ := map_eq_some_iff.mp hentry
    exact ⟨hmachine, hidle⟩
  · rintro ⟨hmachine, hidle⟩
    exact ⟨entry.1, hmachine, by rw [idleEntry, hidle]; rfl⟩

variable {machine : ProvisionedMachine} {idle : ℚ}

theorem idleFor_some {demand : MachineDemand} {loads : List (Name × MachineLoad)}
    (h : idleFor demand loads machine = some idle) :
    ¬ Protected demand loads machine := by
  unfold idleFor at h
  split at h
  · next henrolled =>
    obtain ⟨load, hload, hidle⟩ := bind_eq_some_iff.mp h
    split at hidle
    · next huse =>
      rintro (hpending | ⟨-, other, hother, -, hother'⟩)
      · rw [hpending] at henrolled
        cases henrolled
      · cases hload.symm.trans hother
        exact huse.2 hother'
    · cases hidle
  · cases h

theorem filterMap_idleEntry (demand : MachineDemand) (loads : List (Name × MachineLoad))
    (own : List ProvisionedMachine) :
    ((own.filterMap (idleEntry demand loads)).map Prod.fst).Sublist own := by
  induction own with
  | nil => exact .slnil
  | cons machine own ih =>
    rw [filterMap_cons]
    split
    · exact ih.cons machine
    · next entry hentry =>
      obtain ⟨idle, -, rfl⟩ := map_eq_some_iff.mp hentry
      exact ih.cons_cons machine

theorem mem_kept (h : machine ∈ args.kept digest) :
    machine ∈ args.own digest := by
  rw [kept_eq] at h
  rcases mem_append.mp h with h | h
  · exact (mem_filter.mp h).1
  · obtain ⟨entry, hentry, rfl⟩ := mem_map.mp h
    exact (mem_sortedIdle.mp (mem_of_mem_take hentry)).1

theorem protected_mem_kept (h : machine ∈ args.own digest)
    (hprotected : Protected args.demand args.loads machine) : machine ∈ args.kept digest := by
  rw [kept_eq]
  exact mem_append_left _ (mem_filter.mpr ⟨h, decide_eq_true hprotected⟩)

/-- An idle machine that is not kept comes after all those that are, and there are enough. -/
theorem idle_not_kept (h : machine ∈ args.own digest)
    (hidle : idleFor args.demand args.loads machine = some idle) (hnot : machine ∉ args.kept digest)
    :
    args.demand.min ≤ (args.kept digest).length ∧
      ∀ other ∈ args.kept digest, ¬ Protected args.demand args.loads other →
        ∃ shorter ∈ idleFor args.demand args.loads other, shorter ≤ idle := by
  rw [kept_eq] at hnot ⊢
  generalize hkept : ((args.own digest).filter fun machine =>
    decide (Protected args.demand args.loads machine)) = kept at hnot ⊢
  have hmem : (machine, idle) ∈ sortedIdle digest args := mem_sortedIdle.mpr ⟨h, hidle⟩
  have hsorted : (sortedIdle digest args).Pairwise fun left right => left.2 ≤ right.2 :=
    pairwise_insertionSort _ _
  have hall := take_append_drop (args.demand.min - kept.length) (sortedIdle digest args)
  rw [← hall] at hmem hsorted
  have hlast : (machine, idle) ∈
      (sortedIdle digest args).drop (args.demand.min - kept.length) := by
    refine (mem_append.mp hmem).resolve_left fun hfirst => hnot ?_
    exact mem_append_right _ (mem_map.mpr ⟨_, hfirst, rfl⟩)
  refine ⟨?_, fun other hother hother' => ?_⟩
  · have hpos := length_pos_of_mem hlast
    rw [length_drop] at hpos
    rw [length_append, length_map, length_take]
    omega
  · rcases mem_append.mp hother with hother | hother
    · rw [← hkept] at hother
      exact absurd (of_decide_eq_true (mem_filter.mp hother).2) hother'
    · obtain ⟨entry, hentry, rfl⟩ := mem_map.mp hother
      exact ⟨entry.2, (mem_sortedIdle.mp (mem_of_mem_take hentry)).2,
        (pairwise_append.mp hsorted).2.2 entry hentry _ hlast⟩

/-- A machine kept although it is idle is one of the least that are kept. -/
theorem kept_idle (h : machine ∈ args.kept digest)
    (hnot : ¬ Protected args.demand args.loads machine) :
    (args.kept digest).length ≤ args.demand.min ∧
      ∃ idle, idleFor args.demand args.loads machine = some idle := by
  rw [kept_eq] at h ⊢
  rcases mem_append.mp h with h | h
  · exact absurd (of_decide_eq_true (mem_filter.mp h).2) hnot
  · obtain ⟨entry, hentry, rfl⟩ := mem_map.mp h
    have hpos := length_pos_of_mem hentry
    rw [length_take] at hpos
    refine ⟨?_, entry.2, (mem_sortedIdle.mp (mem_of_mem_take hentry)).2⟩
    rw [length_append, length_map, length_take]
    omega

section

variable (hnames : (args.machines.map ProvisionedMachine.name).Nodup)

include hnames

theorem own_names : ((args.own digest).map ProvisionedMachine.name).Nodup :=
  (filter_sublist.map _).nodup hnames

theorem kept_names : ((args.kept digest).map ProvisionedMachine.name).Nodup := by
  have hown := @own_names digest args hnames
  refine List.Nodup.map_on (fun machine hm other ho => inj_on_of_nodup_map hown (mem_kept hm)
    (mem_kept ho)) ?_
  have hall : (args.own digest).Nodup := hown.of_map
  rw [kept_eq]
  refine (hall.filter _).append ?_ ?_
  · have hidle : ((sortedIdle digest args).map Prod.fst).Nodup :=
      ((perm_insertionSort _ _).map Prod.fst).nodup_iff.mpr
        ((filterMap_idleEntry _ _ _).nodup hall)
    rw [map_take]
    exact (take_sublist _ _).nodup hidle
  · intro machine hprotected hidle
    obtain ⟨entry, hentry, rfl⟩ := mem_map.mp hidle
    exact idleFor_some (mem_sortedIdle.mp (mem_of_mem_take hentry)).2
      (of_decide_eq_true (mem_filter.mp hprotected).2)

end

/-- A pending machine, one that was used just now, and one of another group. -/
def teamArgs : DemandArgs where
  rule := "r".toList
  definition := ⟨some "g".toList, none, "c".toList, [], false⟩
  demand := ⟨4, 0, 10, 10⟩
  machines := [⟨"r-ABCDEF-1".toList, .pending⟩, ⟨"r-ABCDEF-3".toList, .enrolled⟩,
    ⟨"r-GHIJKL-1".toList, .enrolled⟩]
  loads := [("r-ABCDEF-3".toList,
    ⟨0, 60000, 0, false, some ⟨⟨1, some 500, none⟩, ⟨some 100, none⟩⟩⟩)]
  waits := [⟨⟨some 400, none, none, none⟩, []⟩, ⟨⟨none, none, none, none⟩, []⟩,
    ⟨⟨none, none, none, none⟩, []⟩]
  stalled := false

example : (demandMachines (fun _ _ => "ABCDEF".toList) teamArgs).map DesiredMachine.name =
    ["r-ABCDEF-1".toList, "r-ABCDEF-3".toList, "r-ABCDEF-2".toList] := by decide +kernel

end Catamorphic.Workers.Demand
