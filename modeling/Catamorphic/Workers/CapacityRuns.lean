import Mathlib.Algebra.Order.BigOperators.Group.List
import Mathlib.Algebra.Order.Ring.Nat
import Catamorphic.Lib.Table
import Catamorphic.Workers.Capacity

/-!
# Capacity is never overcommitted

Who creates an allocation on a node holds the node's row from the moment it reads the capacity
to its commit. Until then nobody else can create one there, nor write the capacity or disable
the node; all that others can do to what it counted is to give capacity back. So what it
found to fit still fits when it commits.
-/

namespace Catamorphic.Workers.Capacity

open RowLocks Function List Option

/-! ## What allocations take -/

/-- The usage is within the capacity. -/
structure Usage.Within (usage : Usage) (capacity : WorkerCapacity) : Prop where
  workspaces : usage.workspaces ≤ capacity.workspaces
  cpuMillis : ∀ limit ∈ capacity.cpuMillis, usage.cpuMillis ≤ limit
  memoryMb : ∀ limit ∈ capacity.memoryMb, usage.memoryMb ≤ limit

/-- Some usage is no more than another. -/
structure Usage.Below (usage usage' : Usage) : Prop where
  workspaces : usage.workspaces ≤ usage'.workspaces
  cpuMillis : usage.cpuMillis ≤ usage'.cpuMillis
  memoryMb : usage.memoryMb ≤ usage'.memoryMb

/-- The usage with one more workspace. -/
def Usage.with (usage : Usage) (resources : Resources) : Usage where
  workspaces := usage.workspaces + 1
  cpuMillis := usage.cpuMillis + resources.cpuMillis.getD 0
  memoryMb := usage.memoryMb + resources.memoryMb.getD 0

variable {usage usage' : Usage} {capacity : WorkerCapacity} {phase : Phase}

theorem Usage.Within.mono (h : usage.Within capacity) (hb : usage'.Below usage) :
    usage'.Within capacity where
  workspaces := hb.workspaces.trans h.workspaces
  cpuMillis limit hlimit := hb.cpuMillis.trans (h.cpuMillis limit hlimit)
  memoryMb limit hlimit := hb.memoryMb.trans (h.memoryMb limit hlimit)

theorem Usage.Below.refl (usage : Usage) : usage.Below usage := ⟨le_rfl, le_rfl, le_rfl⟩

theorem Usage.Below.of_eq (h : usage = usage') : usage.Below usage' :=
  h ▸ .refl usage

theorem Usage.Below.with (h : usage.Below usage') (resources : Resources) :
    (usage.with resources).Below (usage'.with resources) :=
  ⟨Nat.add_le_add_right h.workspaces _, Nat.add_le_add_right h.cpuMillis _,
    Nat.add_le_add_right h.memoryMb _⟩

theorem all_iff {limit : Option Nat} {p : Nat → Prop} [DecidablePred p] :
    (limit.all fun l => decide (p l)) = true ↔ ∀ l ∈ limit, p l := by
  cases limit <;> simp

/-- `capacityFits` leaves room for one more workspace. -/
theorem capacityFits_iff {resources : Resources} :
    capacityFits capacity usage resources = true ↔ (usage.with resources).Within capacity := by
  rw [capacityFits, Bool.and_eq_true, Bool.and_eq_true, decide_eq_true_eq, all_iff, all_iff]
  exact ⟨fun ⟨⟨hw, hc⟩, hm⟩ => ⟨hw, hc, hm⟩, fun ⟨hw, hc, hm⟩ => ⟨⟨hw, hc⟩, hm⟩⟩

/-- What a row takes of a node. -/
def weigh (row : Option Allocation) (nodeId : NodeId) (of : Allocation → Nat) : Nat :=
  (row.filter fun row => row.holds nodeId).elim 0 of

/-- A row takes no more of the node than another. -/
def Lighter (nodeId : NodeId) (row' row : Option Allocation) : Prop :=
  ∀ r' ∈ row', r'.holds nodeId = true → ∃ r ∈ row, r.holds nodeId = true ∧
    r.reservedCpuMillis = r'.reservedCpuMillis ∧ r.reservedMemoryMb = r'.reservedMemoryMb

section Loads

variable {rows rows' : AllocationId → Option Allocation} {bound : AllocationId}
  {nodeId : NodeId} {of : Allocation → Nat} {row row' row'' : Option Allocation}

theorem Lighter.refl (row : Option Allocation) : Lighter nodeId row row :=
  fun r hr hholds => ⟨r, hr, hholds, rfl, rfl⟩

theorem Lighter.trans (h : Lighter nodeId row'' row') (h' : Lighter nodeId row' row) :
    Lighter nodeId row'' row := by
  intro r'' hr'' hholds''
  obtain ⟨r', hr', hholds', hcpu', hmem'⟩ := h r'' hr'' hholds''
  obtain ⟨r, hr, hholds, hcpu, hmem⟩ := h' r' hr' hholds'
  exact ⟨r, hr, hholds, hcpu.trans hcpu', hmem.trans hmem'⟩

theorem Lighter.weigh (h : Lighter nodeId row' row)
    (hof : ∀ r r' : Allocation, r.reservedCpuMillis = r'.reservedCpuMillis →
      r.reservedMemoryMb = r'.reservedMemoryMb → of r = of r') :
    weigh row' nodeId of ≤ weigh row nodeId of := by
  cases hrow' : row'.filter fun row => row.holds nodeId with
  | none =>
    rw [Capacity.weigh, hrow']
    exact Nat.zero_le _
  | some r' =>
    obtain ⟨hr', hholds'⟩ := filter_eq_some_iff.mp hrow'
    obtain ⟨r, hr, hholds, hcpu, hmem⟩ := h r' hr' hholds'
    have hrow : (row.filter fun row => row.holds nodeId) = some r :=
      filter_eq_some_iff.mpr ⟨hr, hholds⟩
    rw [Capacity.weigh, Capacity.weigh, hrow', hrow]
    exact (hof r r' hcpu hmem).ge

theorem load_eq : load rows bound nodeId of =
    ((List.range bound).map fun id => weigh (rows id) nodeId of).sum := rfl

theorem load_succ : load rows (bound + 1) nodeId of =
    load rows bound nodeId of + weigh (rows bound) nodeId of := by
  rw [load_eq, load_eq, range_succ, map_append, sum_append, map_singleton, sum_singleton]

/-- Rows that take no more are no more usage. -/
theorem below_of_lighter (h : ∀ id, Lighter nodeId (rows' id) (rows id)) :
    (workerUsage rows' bound nodeId).Below (workerUsage rows bound nodeId) where
  workspaces := sum_le_sum fun id _ => (h id).weigh fun _ _ _ _ => rfl
  cpuMillis := sum_le_sum fun id _ => (h id).weigh fun _ _ hcpu _ => hcpu
  memoryMb := sum_le_sum fun id _ => (h id).weigh fun _ _ _ hmem => hmem

theorem weigh_none : weigh none nodeId of = 0 := rfl

theorem weigh_some {r : Allocation} :
    weigh (some r) nodeId of = if r.holds nodeId then of r else 0 := by
  rw [weigh, filter_some]
  by_cases hholds : r.holds nodeId = true
  · simp [hholds]
  · simp [hholds]

end Loads

/-! ## The invariant -/

/-- The transaction has created allocations on the node: it holds the node, enabled, and what
it sees of its usage is within the capacity. -/
structure Placed (w : World) (tx : TxId) (nodeId : NodeId) (node : Node) : Prop where
  held : w.nodes.held nodeId = some (tx, some node)
  enabled : node.enabled = true
  places : ∃ t, w.transactions tx = some t ∧ t.places = true
  fits : ∀ capacity ∈ node.capacity, (w.usageFor tx nodeId).Within capacity

/-- What a transaction knows at a statement. -/
def Begun (w : World) (tx : TxId) (places : Bool) : Phase → Prop
  | .ready => True
  | .requested _ => places = true
  | .chosen args nodeId node =>
    places = true ∧ args.workerNodeId = some nodeId ∧
      w.nodes.held nodeId = some (tx, some node) ∧ node.enabled = true
  | .fitted args policy | .admitted args policy =>
    places = true ∧ ∀ nodeId, args.workerNodeId = some nodeId → ∃ node,
      w.nodes.held nodeId = some (tx, some node) ∧ node.enabled = true ∧
        ∀ capacity ∈ node.capacity,
          ((w.usageFor tx nodeId).with policy.reserved).Within capacity
  | .draining _ _ | .drainingHeld _ | .revoking _ | .disabling _ => places = false
  | .deleting nodeId | .deletingRow nodeId =>
    places = false ∧ ∃ row, w.nodes.held nodeId = some (tx, row)

structure Sound (w : World) : Prop where
  bounded : ∀ id, w.nextAllocation ≤ id →
    w.allocations.rows id = none ∧ w.allocations.held id = none
  /-- Who changes an allocation makes it no heavier. -/
  lightens : ∀ id tx row' row, w.allocations.held id = some (tx, row') →
    w.allocations.rows id = some row → ∀ nodeId, Lighter nodeId row' (some row)
  /-- Who inserts one has placed it. -/
  placed : ∀ id tx row nodeId, w.allocations.held id = some (tx, some row) →
    w.allocations.rows id = none → row.workerNodeId = some nodeId →
      ∃ node, Placed w tx nodeId node
  begun : ∀ tx t, w.transactions tx = some t → Begun w tx t.places t.phase

theorem sound_empty (now : Nat) : Sound (empty now) where
  bounded _ _ := ⟨rfl, rfl⟩
  lightens _ _ _ _ h := by cases h
  placed _ _ _ _ h := by cases h
  begun _ _ h := by cases h

section Frames

variable {w w' : World} {tx tx' : TxId} {t : Transaction} {nodeId : NodeId} {node : Node}

/-- What a transaction holds stays, and what it sees of the nodes it holds only falls. -/
structure Leaves (w w' : World) (tx : TxId) : Prop where
  held : ∀ nodeId row, w.nodes.held nodeId = some (tx, row) →
    w'.nodes.held nodeId = some (tx, row)
  usage : ∀ nodeId row, w.nodes.held nodeId = some (tx, row) →
    (w'.usageFor tx nodeId).Below (w.usageFor tx nodeId)

theorem Placed.leaves (h : Placed w tx nodeId node) (hl : Leaves w w' tx)
    (htx : ∃ t, w'.transactions tx = some t ∧ t.places = true) : Placed w' tx nodeId node where
  held := hl.held _ _ h.held
  enabled := h.enabled
  places := htx
  fits capacity hcap := (h.fits capacity hcap).mono (hl.usage _ _ h.held)

theorem Begun.leaves {places : Bool} (h : Begun w tx places phase)
    (hl : Leaves w w' tx) : Begun w' tx places phase := by
  cases phase with
  | ready => trivial
  | requested args => exact h
  | chosen args nodeId node => exact ⟨h.1, h.2.1, hl.held _ _ h.2.2.1, h.2.2.2⟩
  | fitted args policy | admitted args policy =>
    refine ⟨h.1, fun nodeId hnode => ?_⟩
    obtain ⟨node, hheld, henabled, hfits⟩ := h.2 nodeId hnode
    exact ⟨node, hl.held _ _ hheld, henabled, fun capacity hcap =>
      (hfits capacity hcap).mono ((hl.usage _ _ hheld).with _)⟩
  | draining args live => exact h
  | drainingHeld args => exact h
  | revoking args => exact h
  | disabling args => exact h
  | deleting nodeId | deletingRow nodeId => exact ⟨h.1, h.2.imp fun _ => hl.held _ _⟩

/-- What two stores of allocations show decides what is seen of the usage. -/
theorem usageFor_below (w w' : World) (hbound : w'.nextAllocation = w.nextAllocation)
    (h : ∀ id, Lighter nodeId (w'.allocations.view tx id) (w.allocations.view tx id)) :
    (w'.usageFor tx nodeId).Below (w.usageFor tx nodeId) := by
  rw [World.usageFor, World.usageFor, hbound]
  exact below_of_lighter h

end Frames

variable {args : CreateArgs}

section Steps

variable {w w' : World} {tx tx' : TxId} {t : Transaction} {nodeId : NodeId} {policy : Policy}
  {now : Nat}

section

variable (h : Sound w)
include h

/-- A transaction goes on to a statement it is ready for. -/
theorem Sound.goesOn (ht : ∀ t', w.transactions tx = some t' →
    t'.places = t.places) (hbegun : Begun w tx t.places phase) : Sound (w.goesOn tx t phase) where
  bounded := h.bounded
  lightens := h.lightens
  placed id owner row nodeId hheld hrow hnode := by
    obtain ⟨node, hplaced⟩ := h.placed id owner row nodeId hheld hrow hnode
    refine ⟨node, hplaced.leaves ⟨fun _ _ h => h, fun _ _ _ => .refl _⟩ ?_⟩
    obtain ⟨t', ht', hplaces⟩ := hplaced.places
    by_cases howner : owner = tx
    · subst howner
      exact ⟨_, update_self .., (ht t' ht').symm.trans hplaces⟩
    · exact ⟨t', (update_of_ne howner ..).trans ht', hplaces⟩
  begun owner t' ht' := by
    by_cases howner : owner = tx
    · subst howner
      have heq := (update_self ..).symm.trans ht'
      rw [← some.inj heq]
      exact hbegun
    · exact h.begun owner t' ((update_of_ne howner ..).symm.trans ht')

/-- A transaction takes a node's row as it sees it, or writes it if it creates nothing. -/
theorem Sound.holdNode {row : Option Node} (hfree : w.nodes.free tx nodeId = true)
    (hrow : row = w.nodes.view tx nodeId ∨ ∃ t, w.transactions tx = some t ∧ t.places = false) :
    Sound { w with nodes := w.nodes.hold tx nodeId row } := by
  -- A node that another transaction holds is another node.
  have hothers (owner : TxId) (hne : owner ≠ tx) (other : NodeId) (row' : Option Node)
      (hheld : w.nodes.held other = some (owner, row')) :
      (w.nodes.hold tx nodeId row).held other = some (owner, row') := by
    refine (hold_held_of_ne ?_).trans hheld
    intro heq
    subst heq
    exact hne (eq_of_free hfree hheld)
  have hmine (hview : row = w.nodes.view tx nodeId) (other : NodeId) (row' : Option Node)
      (hheld : w.nodes.held other = some (tx, row')) :
      (w.nodes.hold tx nodeId row).held other = some (tx, row') := by
    by_cases hother : other = nodeId
    · subst hother
      rw [hold_held_self, hview, view_held hheld]
    · exact (hold_held_of_ne hother).trans hheld
  have hleaves (owner : TxId) (hown : owner ≠ tx ∨ row = w.nodes.view tx nodeId) :
      Leaves w { w with nodes := w.nodes.hold tx nodeId row } owner := by
    refine ⟨fun other row' hheld => ?_, fun _ _ _ => .refl _⟩
    by_cases howner : owner = tx
    · subst howner
      exact hmine (hown.resolve_left fun hne => hne rfl) other row' hheld
    · exact hothers owner howner other row' hheld
  refine ⟨h.bounded, h.lightens, fun id owner row' other hheld hnone hnode => ?_,
    fun owner t ht => ?_⟩
  · obtain ⟨node, hplaced⟩ := h.placed id owner row' other hheld hnone hnode
    refine ⟨node, hplaced.leaves (hleaves owner ?_) hplaced.places⟩
    by_cases howner : owner = tx
    · subst howner
      refine .inr (hrow.resolve_right fun ⟨t, ht, hplaces⟩ => ?_)
      obtain ⟨t', ht', hplaces'⟩ := hplaced.places
      rw [ht] at ht'
      rw [← some.inj ht', hplaces] at hplaces'
      cases hplaces'
    · exact .inl howner
  · by_cases howner : owner = tx
    · subst howner
      rcases hrow with hview | ⟨t', ht', hplaces⟩
      · exact (h.begun owner t ht).leaves (hleaves owner (.inr hview))
      · -- A transaction that creates nothing needs to know at most that it holds the node.
        rw [ht] at ht'
        cases ht'
        have hbegun := h.begun owner t ht
        have hdel (other : NodeId) (hheld : ∃ row', w.nodes.held other = some (owner, row')) :
            ∃ row', (w.nodes.hold owner nodeId row).held other = some (owner, row') := by
          by_cases hother : other = nodeId
          · exact ⟨row, hother ▸ hold_held_self⟩
          · exact hheld.imp fun _ => (hold_held_of_ne hother).trans
        rw [hplaces] at hbegun ⊢
        cases hphase : t.phase with
        | ready => trivial
        | requested args => rw [hphase] at hbegun; cases hbegun
        | chosen args nodeId node | fitted args policy | admitted args policy =>
          rw [hphase] at hbegun; cases hbegun.1
        | draining args live => rfl
        | drainingHeld args => rfl
        | revoking args => rfl
        | disabling args => rfl
        | deleting other | deletingRow other =>
          rw [hphase] at hbegun; exact ⟨rfl, hdel other hbegun.2⟩
    · exact (h.begun owner t ht).leaves (hleaves owner (.inl howner))

/-- A transaction makes a row it may change lighter. -/
theorem Sound.updateAllocation {id : AllocationId} {which : Allocation → Bool}
    {set : Allocation → Allocation} {allocations : Store AllocationId Allocation TxId}
    (hset : ∀ row, (set row).workerNodeId = row.workerNodeId ∧
      ∀ nodeId, Lighter nodeId (some (set row)) (some row))
    (hs : w.allocations.update tx id which set = some allocations) :
    Sound { w with allocations } := by
  rcases update_cases hs with rfl | ⟨row, hview, -, hfree, rfl⟩
  · exact h
  have hlighter (owner : TxId) (nodeId : NodeId) (other : AllocationId) :
      Lighter nodeId ((w.allocations.hold tx id (some (set row))).view owner other)
        (w.allocations.view owner other) := by
    by_cases howner : owner = tx
    · subst howner
      by_cases hother : other = id
      · subst hother
        rw [hold_view_self, hview]
        exact (hset row).2 nodeId
      · rw [hold_view_of_ne hother]
        exact .refl _
    · rw [hold_view_other hfree howner]
      exact .refl _
  have hleaves (owner : TxId) : Leaves w { w with
      allocations := w.allocations.hold tx id (some (set row)) } owner :=
    ⟨fun _ _ hheld => hheld, fun nodeId _ _ =>
      usageFor_below w { w with allocations := w.allocations.hold tx id (some (set row)) }
        rfl (hlighter owner nodeId)⟩
  refine ⟨fun other hother => ?_, fun other owner row' row₀ hheld hrow nodeId => ?_,
    fun other owner row' nodeId hheld hnone hnode => ?_,
    fun owner t ht => (h.begun owner t ht).leaves (hleaves owner)⟩
  · obtain ⟨hrows, hnone⟩ := h.bounded other hother
    refine ⟨hrows, (hold_held_of_ne ?_).trans hnone⟩
    intro heq
    subst heq
    rw [view_none hnone, hrows] at hview
    cases hview
  · rcases hold_some hheld with ⟨rfl, rfl, rfl⟩ | ⟨-, hheld⟩
    · refine ((hset row).2 nodeId).trans ?_
      by_cases hsame : w.allocations.view owner other = w.allocations.rows other
      · have hrow' : w.allocations.rows other = some row₀ := hrow
        rw [← hview, hsame, hrow']
        exact .refl _
      · exact hview ▸ h.lightens other owner _ row₀ (held_of_view hsame) hrow nodeId
    · exact h.lightens other owner row' row₀ hheld hrow nodeId
  · rcases hold_some hheld with ⟨rfl, rfl, hrow'⟩ | ⟨-, hheld⟩
    · have hinserted : w.allocations.held other = some (owner, some row) := by
        have hnone' : w.allocations.rows other = none := hnone
        rw [← hview]
        refine held_of_view fun heq => ?_
        rw [heq, hnone'] at hview
        cases hview
      cases hrow'
      obtain ⟨node, hplaced⟩ := h.placed other owner row nodeId hinserted hnone
        ((hset row).1.symm.trans hnode)
      exact ⟨node, hplaced.leaves (hleaves owner) hplaced.places⟩
    · obtain ⟨node, hplaced⟩ := h.placed other owner row' nodeId hheld hnone hnode
      exact ⟨node, hplaced.leaves (hleaves owner) hplaced.places⟩

/-- All of a node's allocations are given back row by row. -/
theorem Sound.giveBackAll (hs : w.giveBackAll tx nodeId = some w') : Sound w' := by
  obtain ⟨allocations, hfold, rfl⟩ := map_eq_some_iff.mp hs
  clear hs
  generalize List.range w.nextAllocation = ids at hfold
  -- Induction on the rows that are left.
  induction ids generalizing w with
  | nil =>
    cases hfold
    exact h
  | cons id ids ih =>
    obtain ⟨first, hfirst, hrest⟩ := bind_eq_some_iff.mp hfold
    refine ih (w := { w with allocations := first }) (h.updateAllocation (fun row => ?_) hfirst)
      hrest
    refine ⟨rfl, fun other r' hr' hholds => ?_⟩
    cases hr'
    simp [Allocation.holds] at hholds

/-- A transaction that knows that an allocation fits inserts it. -/
theorem Sound.insertRow (ht : w.transactions tx = some t)
    (hready : t.phase = .ready) (hbegun : Begun w tx t.places (.admitted args policy)) :
    Sound { w with
      allocations := w.allocations.hold tx w.nextAllocation (some (args.row policy))
      nextAllocation := w.nextAllocation + 1 } := by
  obtain ⟨hrows, hheld⟩ := h.bounded w.nextAllocation le_rfl
  have hfree : w.allocations.free tx w.nextAllocation = true := by
    rw [Store.free, hheld]
    rfl
  -- A new row changes the usage of its own node alone, and for its transaction alone.
  have hweigh (owner : TxId) (nodeId : NodeId) (of : Allocation → Nat) :
      load ((w.allocations.hold tx w.nextAllocation (some (args.row policy))).view owner)
          (w.nextAllocation + 1) nodeId of =
        load (w.allocations.view owner) w.nextAllocation nodeId of +
          if owner = tx ∧ args.workerNodeId = some nodeId then of (args.row policy) else 0 := by
    rw [load_succ]
    congr 1
    · rw [load_eq, load_eq]
      refine congrArg List.sum (map_congr_left fun id hid => ?_)
      rw [hold_view_of_ne (mem_range.mp hid).ne]
    · by_cases howner : owner = tx
      · subst howner
        rw [hold_view_self, weigh_some]
        by_cases hnode : args.workerNodeId = some nodeId <;>
          simp [Allocation.holds, CreateArgs.row, hnode]
      · rw [hold_view_other hfree howner, view_none hheld, hrows, weigh_none,
          if_neg fun hand => howner hand.1]
  have hsame (owner : TxId) (nodeId : NodeId)
      (hne : ¬(owner = tx ∧ args.workerNodeId = some nodeId)) :
      workerUsage ((w.allocations.hold tx w.nextAllocation (some (args.row policy))).view owner)
        (w.nextAllocation + 1) nodeId = w.usageFor owner nodeId := by
    simp only [workerUsage, hweigh, if_neg hne, Nat.add_zero, World.usageFor]
  have hplaced (owner : TxId) (nodeId : NodeId) (node : Node)
      (hp : Placed w owner nodeId node) (hne : ¬(owner = tx ∧ args.workerNodeId = some nodeId)) :
      Placed { w with
        allocations := w.allocations.hold tx w.nextAllocation (some (args.row policy))
        nextAllocation := w.nextAllocation + 1 } owner nodeId node :=
    ⟨hp.held, hp.enabled, hp.places, fun capacity hcap => by
      have hfits := hp.fits capacity hcap
      rwa [← hsame owner nodeId hne] at hfits⟩
  -- On the node of the new row, what was found to fit is what there is now.
  have hnew (nodeId : NodeId) (hnode : args.workerNodeId = some nodeId) :
      ∃ node, Placed { w with
        allocations := w.allocations.hold tx w.nextAllocation (some (args.row policy))
        nextAllocation := w.nextAllocation + 1 } tx nodeId node := by
    obtain ⟨node, hnodeHeld, henabled, hfits⟩ := hbegun.2 nodeId hnode
    refine ⟨node, hnodeHeld, henabled, ⟨t, ht, hbegun.1⟩, fun capacity hcap => ?_⟩
    refine (hfits capacity hcap).mono (.of_eq ?_)
    simp only [World.usageFor, workerUsage, hweigh, hnode]
    rfl
  refine ⟨fun id hid => ?_, fun id owner row' row hhold hrow nodeId => ?_,
    fun id owner row nodeId hhold hnone hnode => ?_, fun owner t' ht' => ?_⟩
  · obtain ⟨hrows', hheld'⟩ := h.bounded id ((Nat.le_succ _).trans hid)
    exact ⟨hrows', (hold_held_of_ne (Nat.ne_of_gt hid)).trans hheld'⟩
  · rcases hold_some hhold with ⟨rfl, -, -⟩ | ⟨-, hhold⟩
    · rw [hold_rows, hrows] at hrow
      cases hrow
    · exact h.lightens id owner row' row hhold hrow nodeId
  · rcases hold_some hhold with ⟨rfl, rfl, hrow⟩ | ⟨-, hhold⟩
    · cases hrow
      exact hnew nodeId hnode
    · by_cases hmine : owner = tx ∧ args.workerNodeId = some nodeId
      · exact hmine.1 ▸ hnew nodeId hmine.2
      · obtain ⟨node, hp⟩ := h.placed id owner row nodeId hhold hnone hnode
        exact ⟨node, hplaced owner nodeId node hp hmine⟩
  · by_cases howner : owner = tx
    · subst howner
      cases ht.symm.trans ht'
      rw [hready]
      trivial
    · refine (h.begun owner t' ht').leaves ⟨fun _ _ hheld => hheld, fun nodeId _ _ => ?_⟩
      exact .of_eq (hsame owner nodeId fun hand => howner hand.1)

theorem Sound.rollback : Sound (w.rollback tx) := by
  have hleaves (owner : TxId) (hne : owner ≠ tx) : Leaves w (w.rollback tx) owner :=
    ⟨fun _ _ hheld => rollback_held_other hheld hne, fun _ _ _ =>
      usageFor_below w (w.rollback tx) rfl fun id => by
        rw [World.rollback, rollback_view hne]
        exact .refl _⟩
  refine ⟨fun id hid => ?_, fun id owner row' row hheld hrow => ?_,
    fun id owner row nodeId hheld hnone hnode => ?_, fun owner t ht => ?_⟩
  · obtain ⟨hrows, hheld⟩ := h.bounded id hid
    refine ⟨hrows, ?_⟩
    rw [World.rollback, rollback_held, hheld]
    rfl
  · exact h.lightens id owner row' row (rollback_some hheld).2 hrow
  · obtain ⟨hne, hheld⟩ := rollback_some hheld
    obtain ⟨node, hplaced⟩ := h.placed id owner row nodeId hheld hnone hnode
    obtain ⟨t, ht, hplaces⟩ := hplaced.places
    exact ⟨node, hplaced.leaves (hleaves owner hne) ⟨t, (update_of_ne hne ..).trans ht, hplaces⟩⟩
  · obtain ⟨hne, ht⟩ : owner ≠ tx ∧ w.transactions owner = some t := Table.update_none ht
    exact (h.begun owner t ht).leaves (hleaves owner hne)

/-- **Who holds a node sees no more of its usage when others commit**: they can have given
capacity back, and have inserted nothing there. -/
theorem Sound.commit_leaves (hne : tx' ≠ tx) : Leaves w (w.commit tx) tx' := by
  refine ⟨fun _ _ hheld => rollback_held_other hheld hne, fun nodeId row hnode => ?_⟩
  refine usageFor_below w (w.commit tx) rfl fun id => ?_
  rw [World.commit]
  cases hheld : w.allocations.held id with
  | none =>
    rw [commit_view_other (fun _ => by rw [hheld]; nofun), view_none hheld, view_none hheld]
    exact .refl _
  | some held =>
    obtain ⟨owner, row'⟩ := held
    by_cases hmine : owner = tx'
    · rw [hmine] at hheld
      rw [commit_view_held hheld hne, view_held hheld]
      exact .refl _
    · have hother (row : Option Allocation) : w.allocations.held id ≠ some (tx', row) := by
        rw [hheld]
        intro heq
        exact hmine (Prod.mk.inj (some.inj heq)).1
      rw [commit_view_other hother, view_other hheld hmine]
      by_cases howner : owner = tx
      · rw [howner] at hheld
        rw [view_held hheld]
        cases hrow : w.allocations.rows id with
        | some row => exact h.lightens id tx row' row hheld hrow nodeId
        | none =>
          -- An insert on the node would have taken it from who holds it.
          rintro r' hr' hholds
          obtain rfl : row' = some r' := hr'
          obtain ⟨hworker, -⟩ := Bool.and_eq_true_iff.mp hholds
          obtain ⟨node, hplaced⟩ := h.placed id tx r' nodeId hheld hrow
            (of_decide_eq_true hworker)
          have hsame := some.inj (hnode.symm.trans hplaced.held)
          exact absurd (Prod.mk.inj hsame).1 hne
      · rw [view_other hheld howner]
        exact .refl _

theorem Sound.commit : Sound (w.commit tx) := by
  refine ⟨fun id hid => ?_, fun id owner row' row hheld hrow => ?_,
    fun id owner row nodeId hheld hnone hnode => ?_, fun owner t ht => ?_⟩
  · obtain ⟨hrows, hheld⟩ := h.bounded id hid
    refine ⟨(view_none hheld).trans hrows, ?_⟩
    have hback : (w.allocations.rollback tx).held id = none := by
      rw [rollback_held, hheld]
      rfl
    exact hback
  · obtain ⟨hne, hheld⟩ := rollback_some hheld
    exact h.lightens id owner row' row hheld ((view_other hheld hne).symm.trans hrow)
  · obtain ⟨hne, hheld⟩ := rollback_some hheld
    obtain ⟨node, hplaced⟩ := h.placed id owner row nodeId hheld
      ((view_other hheld hne).symm.trans hnone) hnode
    obtain ⟨t, ht, hplaces⟩ := hplaced.places
    exact ⟨node, hplaced.leaves (h.commit_leaves hne) ⟨t, (update_of_ne hne ..).trans ht, hplaces⟩⟩
  · obtain ⟨hne, ht⟩ : owner ≠ tx ∧ w.transactions owner = some t := Table.update_none ht
    exact (h.begun owner t ht).leaves (h.commit_leaves hne)

omit h in
theorem idle_some (h : w.idle tx = some t) : w.transactions tx = some t ∧ t.phase = .ready := by
  obtain ⟨ht, hphase⟩ := filter_eq_some_iff.mp h
  exact ⟨ht, of_decide_eq_true hphase⟩

omit h in
theorem tending_some (h : w.tending tx = some t) :
    w.transactions tx = some t ∧ t.places = false := by
  obtain ⟨hidle, hplaces⟩ := filter_eq_some_iff.mp h
  exact ⟨(idle_some hidle).1, by simpa using hplaces⟩

/-- A transaction that is there goes on. -/
theorem Sound.next (ht : w.transactions tx = some t)
    (hbegun : Begun w tx t.places phase) : Sound (w.goesOn tx t phase) :=
  h.goesOn (fun t' ht' => by rw [ht] at ht'; rw [some.inj ht']) hbegun

/-- Statements on other tables change nothing that is counted. -/
theorem Sound.setWorkers (workers : Store NodeId Worker TxId) : Sound { w with workers } where
  __ := h
  placed id owner row nodeId hheld hnone hnode :=
    (h.placed id owner row nodeId hheld hnone hnode).imp fun _ hplaced =>
      hplaced.leaves ⟨fun _ _ hheld => hheld, fun _ _ _ => .refl _⟩ hplaced.places
  begun owner t ht := (h.begun owner t ht).leaves ⟨fun _ _ hheld => hheld, fun _ _ _ => .refl _⟩

theorem Sound.setClock (now : Nat) (projects : ProjectId → Option TenantId) :
    Sound { w with now, projects } where
  bounded := h.bounded
  lightens := h.lightens
  placed id owner row nodeId hheld hnone hnode :=
    (h.placed id owner row nodeId hheld hnone hnode).imp fun _ hplaced =>
      hplaced.leaves ⟨fun _ _ hheld => hheld, fun _ _ _ => .refl _⟩ hplaced.places
  begun owner t ht := (h.begun owner t ht).leaves ⟨fun _ _ hheld => hheld, fun _ _ _ => .refl _⟩

end

section

variable (h : Sound w) (ht : w.transactions tx = some t)
include h ht

theorem Sound.updateNode {which : Node → Bool} {set : Node → Node} (hplaces : t.places = false)
    (hs : w.updateNode tx nodeId which set = some w') : Sound w' := by
  obtain ⟨nodes, hnodes, rfl⟩ := map_eq_some_iff.mp hs
  rcases update_cases hnodes with rfl | ⟨node, -, -, hfree, rfl⟩
  · exact h
  · exact h.holdNode hfree (.inr ⟨t, ht, hplaces⟩)

theorem Sound.upsertNode {accepts : Node → Bool} {row : Bool → Node} (hplaces : t.places = false)
    (hs : w.upsertNode tx nodeId accepts row = some w') : Sound w' := by
  rw [World.upsertNode] at hs
  by_cases hfree : w.nodes.free tx nodeId = true
  · rw [hfree, Bool.not_true, if_neg Bool.false_ne_true] at hs
    split at hs
    · cases hs
      exact h.holdNode hfree (.inr ⟨t, ht, hplaces⟩)
    · split at hs
      · cases hs
        exact h.holdNode hfree (.inr ⟨t, ht, hplaces⟩)
      · cases hs
        exact h.rollback
  · rw [if_pos (by simpa using hfree)] at hs
    cases hs

theorem Sound.writeNode {write : NodeWrite} (hplaces : t.places = false)
    (hs : w.writeNode tx now nodeId write = some w') : Sound w' := by
  cases write with
  | register offer disposable evenIfDisabled | connectRemote offer =>
    exact h.upsertNode ht hplaces hs
  | renew token | renewRemote token | release token | setEnabled tenantId authorityId enabled
  | enroll tenantId => exact h.updateNode ht hplaces hs

omit h ht in
/-- No write of an allocation moves it, or makes it heavier. -/
theorem AllocationWrite.set_lighter (write : AllocationWrite) (row : Allocation) :
    (write.set row).workerNodeId = row.workerNodeId ∧
      ∀ nodeId, Lighter nodeId (some (write.set row)) (some row) := by
  have hholds (nodeId : NodeId) (h : (write.set row).holds nodeId = true) :
      row.holds nodeId = true := by
    cases write with
    | release tenantId => exact h
    | retire | giveBack => simp [Allocation.holds, AllocationWrite.set] at h
  refine ⟨by cases write <;> rfl, fun nodeId r' hr' hr => ?_⟩
  cases hr'
  exact ⟨row, rfl, hholds nodeId hr, by cases write <;> rfl, by cases write <;> rfl⟩

theorem Sound.chooseNode
    (hphase : t.phase = .requested args) (hnode : args.workerNodeId = some nodeId)
    (hs : w.chooseNode tx t args nodeId = some w') : Sound w' := by
  have hplaces : t.places = true := by
    have hbegun := h.begun tx t ht
    rwa [hphase] at hbegun
  rw [World.chooseNode] at hs
  by_cases hfree : w.nodes.free tx nodeId = true
  · rw [hfree, Bool.not_true, if_neg Bool.false_ne_true] at hs
    cases hview : w.nodes.view tx nodeId with
    | none =>
      simp only [hview] at hs
      cases hs
      exact h.rollback
    | some node =>
      simp only [hview] at hs
      split at hs
      · rename_i hwhere
        cases hs
        obtain ⟨hwhere, -⟩ := Bool.and_eq_true_iff.mp hwhere
        obtain ⟨-, henabled⟩ := Bool.and_eq_true_iff.mp hwhere
        have hheld := h.holdNode hfree (.inl hview.symm)
        exact hheld.next ht ⟨hplaces, hnode, hold_held_self, henabled⟩
      · cases hs
        exact h.rollback
  · rw [if_pos (by simpa using hfree)] at hs
    cases hs

theorem Sound.insert
    (hphase : t.phase = .admitted args policy) (hs : w.insert tx t args policy = some w') :
    Sound w' := by
  have hbegun := h.begun tx t ht
  rw [hphase] at hbegun
  rw [World.insert] at hs
  split at hs
  · cases hs
  split at hs
  · cases hs
    exact h.rollback
  · cases hs
    have hready : Sound (w.goesOn tx t .ready) := h.next ht trivial
    exact hready.insertRow (update_self ..) rfl hbegun

theorem Sound.drain {args : DrainArgs}
    (hplaces : t.places = false) (hs : w.drain tx t args = some w') : Sound w' := by
  rw [World.drain] at hs
  split at hs
  · cases hs
    exact h.next ht hplaces
  · split at hs
    · rename_i hfree
      cases hs
      exact (h.holdNode hfree (.inr ⟨t, ht, hplaces⟩)).next ht hplaces
    · cases hs

theorem Sound.deleteNode {graceMs : Nat}
    (hplaces : t.places = false) : Sound (w.deleteNode tx t nodeId graceMs) := by
  rw [World.deleteNode]
  split
  · exact h
  · split
    · rename_i hwhere
      obtain ⟨hwhere, -⟩ := Bool.and_eq_true_iff.mp hwhere
      obtain ⟨hfree, -⟩ := Bool.and_eq_true_iff.mp hwhere
      exact (h.holdNode hfree (.inr ⟨t, ht, hplaces⟩)).next ht ⟨hplaces, _, hold_held_self⟩
    · exact h

/-- Every statement of a transaction keeps the invariant. -/
theorem Sound.proceed (hs : w.proceed tx t = some w') : Sound w' := by
  have hbegun := h.begun tx t ht
  rw [World.proceed] at hs
  cases hphase : t.phase with
  | ready =>
    rw [hphase] at hs
    cases hs
  | requested args =>
    rw [hphase] at hs hbegun
    cases hnode : args.workerNodeId with
    | none =>
      simp only [hnode] at hs
      cases hs
      refine h.next ht ⟨hbegun, fun nodeId hsome => ?_⟩
      rw [hnode] at hsome
      cases hsome
    | some nodeId =>
      simp only [hnode] at hs
      exact h.chooseNode ht hphase hnode hs
  | chosen args nodeId node =>
    rw [hphase] at hs hbegun
    obtain ⟨hplaces, hnode, hheld, henabled⟩ := hbegun
    simp only at hs
    split at hs
    · rename_i hall
      cases hs
      refine h.next ht ⟨hplaces, fun other hother => ?_⟩
      cases hnode.symm.trans hother
      refine ⟨node, hheld, henabled, fun capacity hcap => capacityFits_iff.mp ?_⟩
      rw [mem_def.mp hcap] at hall
      exact hall
    · cases hs
      exact h.rollback
  | fitted args policy =>
    rw [hphase] at hs hbegun
    simp only at hs
    split at hs
    · cases hs
      exact h.next ht hbegun
    · cases hs
      exact h.rollback
  | admitted args policy =>
    rw [hphase] at hs
    exact h.insert ht hphase hs
  | draining args live =>
    rw [hphase] at hs hbegun
    simp only at hs
    split at hs
    · split at hs
      · cases hs
        exact h.next ht trivial
      · cases hs
        exact h.next ht hbegun
    · cases hs
      exact h.next ht hbegun
  | drainingHeld args =>
    rw [hphase] at hs hbegun
    simp only at hs
    split at hs
    · cases hs
      exact h.next ht hbegun
    · cases hs
      exact h.next ht trivial
  | revoking args =>
    rw [hphase] at hs hbegun
    simp only at hs
    split at hs
    · cases hs
      exact h.next ht trivial
    · split at hs
      · cases hs
        exact (h.setWorkers _).next ht hbegun
      · cases hs
  | disabling args =>
    rw [hphase] at hs hbegun
    obtain ⟨w₁, hw₁, rfl⟩ := map_eq_some_iff.mp hs
    have htx : w₁.transactions tx = some t := by
      obtain ⟨nodes, -, rfl⟩ := map_eq_some_iff.mp hw₁
      exact ht
    exact (h.updateNode ht hbegun hw₁).next htx trivial
  | deleting nodeId =>
    rw [hphase] at hs hbegun
    obtain ⟨w₁, hw₁, rfl⟩ := map_eq_some_iff.mp hs
    obtain ⟨allocations, hfold, rfl⟩ := map_eq_some_iff.mp hw₁
    exact (h.giveBackAll hw₁).next ht hbegun
  | deletingRow nodeId =>
    rw [hphase] at hs hbegun
    obtain ⟨hplaces, row, hheld⟩ := hbegun
    cases hs
    have hfree : w.nodes.free tx nodeId = true := by
      rw [Store.free, hheld]
      exact decide_eq_true rfl
    exact (h.holdNode hfree (.inr ⟨t, ht, hplaces⟩)).next ht trivial

end

/-- **Every step keeps the invariant.** -/
theorem Sound.step (h : Sound w) {action : Action} (hs : Capacity.step w action = some w') :
    Sound w' := by
  cases action with
  | tick now =>
    rw [Capacity.step] at hs
    split at hs
    · cases hs
      exact h.setClock now w.projects
    · cases hs
  | project projectId tenantId =>
    cases hs
    exact h.setClock w.now _
  | begin tx places =>
    rw [Capacity.step] at hs
    split at hs
    · rename_i hnone
      cases hs
      refine h.goesOn (fun t' ht' => ?_) trivial
      rw [hnone] at ht'
      cases ht'
    · cases hs
  | proceed tx =>
    obtain ⟨t, ht, hs⟩ := bind_eq_some_iff.mp hs
    exact h.proceed ht hs
  | create tx args =>
    obtain ⟨t, hidle, rfl⟩ := map_eq_some_iff.mp hs
    obtain ⟨hidle, hplaces⟩ := filter_eq_some_iff.mp hidle
    exact h.next (idle_some hidle).1 hplaces
  | writeAllocation tx id write =>
    obtain ⟨t, -, hs⟩ := bind_eq_some_iff.mp hs
    obtain ⟨allocations, hupdate, rfl⟩ := map_eq_some_iff.mp hs
    exact h.updateAllocation write.set_lighter hupdate
  | writeNode tx nodeId write =>
    obtain ⟨t, htending, hs⟩ := bind_eq_some_iff.mp hs
    exact h.writeNode (tending_some htending).1 (tending_some htending).2 hs
  | writeWorker tx nodeId worker =>
    obtain ⟨t, -, hs⟩ := bind_eq_some_iff.mp hs
    split at hs
    · cases hs
      exact h.setWorkers _
    · cases hs
  | drain tx args =>
    obtain ⟨t, htending, hs⟩ := bind_eq_some_iff.mp hs
    exact h.drain (tending_some htending).1 (tending_some htending).2 hs
  | deleteNode tx nodeId graceMs =>
    obtain ⟨t, htending, rfl⟩ := map_eq_some_iff.mp hs
    exact h.deleteNode (tending_some htending).1 (tending_some htending).2
  | commit tx =>
    obtain ⟨t, -, rfl⟩ := map_eq_some_iff.mp hs
    exact h.commit
  | rollback tx =>
    obtain ⟨t, -, rfl⟩ := map_eq_some_iff.mp hs
    exact h.rollback

theorem sound_reach (h : Runs.Reach step Runs.anyEvent (empty now) w) : Sound w :=
  h.invariant (sound_empty now) fun _ _ _ hsound _ => hsound.step

end Steps

/-! ## Commits -/

/-- **No create commits more than its node has room for, or on a disabled node.** When a
transaction commits an allocation on a node, the node is there and enabled at that moment, and
all that holds its capacity then is within the capacity recorded for it then. -/
theorem create_within_capacity {now : Nat} {w w' : World} {tx : TxId} {id : AllocationId}
    {row : Allocation} {nodeId : NodeId} (h : Runs.Reach step Runs.anyEvent (empty now) w)
    (hs : step w (.commit tx) = some w') (hnew : w.allocations.rows id = none)
    (hrow : w'.allocations.rows id = some row) (hnode : row.workerNodeId = some nodeId) :
    ∃ node, w'.nodes.rows nodeId = some node ∧ node.enabled = true ∧
      ∀ capacity ∈ node.capacity, (w'.usage nodeId).Within capacity := by
  obtain ⟨t, -, rfl⟩ := map_eq_some_iff.mp hs
  have hview : w.allocations.view tx id = some row := hrow
  have hheld : w.allocations.held id = some (tx, some row) := by
    rw [← hview]
    refine held_of_view fun heq => ?_
    rw [hview, hnew] at heq
    cases heq
  obtain ⟨node, hplaced⟩ := (sound_reach h).placed id tx row nodeId hheld hnew hnode
  exact ⟨node, view_held hplaced.held, hplaced.enabled, hplaced.fits⟩

/-- A node with room for two workspaces. -/
def room : Offer where
  tenantId := 0
  authorityId := 0
  capacity := some { workspaces := 2, cpuMillis := some 1000 }
  defaults := { cpuMillis := some 500 }
  token := 0

def asks (root : WorkloadId) : CreateArgs where
  tenantId := 0
  projectId := 0
  environmentName := 0
  workloadKind := .agent
  rootWorkloadId := root
  workerNodeId := some 0
  policy := { bindingId := 0, managed := true, resources := none }

/-- Two transactions create on one node, and the second waits for the first. -/
def twoCreates : List Action :=
  [.project 0 (some 0), .begin 0 false, .writeNode 0 0 (.register room false false), .commit 0,
    .begin 1 true, .begin 2 true, .create 1 (asks 1), .create 2 (asks 2), .proceed 1, .proceed 1,
    .proceed 1, .proceed 1, .commit 1, .proceed 2, .proceed 2, .proceed 2, .proceed 2]

theorem create_within_capacity_two : ∃ w w' row,
    Runs.exec step (empty 0) twoCreates = some w ∧ step w (.commit 2) = some w' ∧
      w'.allocations.rows 1 = some row ∧ ∃ node, w'.nodes.rows 0 = some node ∧
        node.enabled = true ∧ ∀ capacity ∈ node.capacity, (w'.usage 0).Within capacity := by
  have hrun : (Runs.exec step (empty 0) twoCreates).bind (fun w =>
      (step w (.commit 2)).map fun w' => (w.allocations.rows 1, w'.allocations.rows 1)) =
      some (none, some ((asks 2).row { (asks 2).policy with
        resources := some { cpuMillis := some 500 } })) := by
    decide +kernel
  obtain ⟨w, hw, hcommit⟩ := bind_eq_some_iff.mp hrun
  obtain ⟨w', hw', hrows⟩ := map_eq_some_iff.mp hcommit
  obtain ⟨hnew, hrow⟩ := Prod.mk.inj hrows
  exact ⟨w, w', _, hw, hw', hrow, create_within_capacity (Runs.reach_of_exec hw) hw' hnew hrow rfl⟩

end Catamorphic.Workers.Capacity
