import Catamorphic.Lib.Table
import Catamorphic.Workers.VolumeHolds

/-!
# Exclusive volumes are mounted once

A managed allocation is claimed for one creation, and its capacity is released only after its
sandbox is gone: it never has two sandboxes, nor one when its holds end. For the others this is
what `Careful` asks. So who mounts a volume still holds it, and one hold has one allocation.
-/

namespace Catamorphic.Workers.Volumes

open Function Option

/-! ## What there is of an allocation -/

/-- The call may still have a sandbox made for the allocation. -/
def World.PendingOf (w : World) (a : AllocationId) (c : CallId) : Prop :=
  ∃ phase, w.creates c = some ⟨a, phase⟩ ∧ phase.pending = true

def World.MadeOf (w : World) (a : AllocationId) (c : CallId) (s : SandboxId) : Prop :=
  w.creates c = some ⟨a, .made s⟩

def World.SandboxOf (w : World) (a : AllocationId) (s : SandboxId) : Prop :=
  ∃ b, w.sandboxes s = some b ∧ b.allocation = a

theorem World.Idle.pending {w : World} {a : AllocationId} (h : w.Idle a) (c : CallId) :
    ¬w.PendingOf a c := fun ⟨_, hcall, hpending⟩ => h.creates c _ hcall hpending rfl

theorem World.Idle.sandbox {w : World} {a : AllocationId} (h : w.Idle a) (s : SandboxId) :
    ¬w.SandboxOf a s := fun ⟨_, hsandbox, ha⟩ => h.sandboxes s _ hsandbox ha

/-- It has an exclusive volume, where `Careful` is met. -/
def Terms.kept (e : Prop) (terms : Terms) : Prop := e ∧ terms.exclusive = true

/-- It is claimed for one creation, or `Careful` keeps it to one. -/
def Terms.guarded (e : Prop) (terms : Terms) : Prop := terms.managedWorkspace = true ∨ terms.kept e

variable {e : Prop}

/-- What a call of `retireAllocation` for a managed allocation knows. -/
def Retiring (w : World) (a : AllocationId) (row : Allocation) : RetirePhase → Prop
  | .selected started sandbox =>
    started = row.sandboxCreationStarted ∧ ∀ s ∈ sandbox, row.sandboxProviderId = some s
  | .destroying _ sandbox =>
    (sandbox = none → row.sandboxCreationStarted = false) ∧
      ∀ s ∈ sandbox, row.sandboxProviderId = some s
  | .releasing _ => (∀ c, ¬w.PendingOf a c) ∧ ∀ s, ¬w.SandboxOf a s

/-- What holds of an allocation, its sandboxes and the calls for it. -/
structure Local (e : Prop) (w : World) (a : AllocationId) (row : Allocation) : Prop where
  live : row.active = true → row.capacityReleased = false
  fresh : ∀ s, row.sandboxProviderId = some s → s < w.nextSandbox
  alone : row.terms.guarded e → ∀ s₁ s₂, w.SandboxOf a s₁ → w.SandboxOf a s₂ → s₁ = s₂
  either : row.terms.guarded e → ∀ c s, w.PendingOf a c → ¬w.SandboxOf a s
  single : row.terms.guarded e → ∀ c₁ c₂, w.PendingOf a c₁ → w.PendingOf a c₂ → c₁ = c₂
  /-- Its holds last. -/
  held : row.terms.kept e → (∃ s, w.SandboxOf a s) ∨ (∃ c, w.PendingOf a c) →
    row.capacityReleased = false ∧ (row.active = true ∨ row.terms.workerNodeId.isSome = true)
  unstarted : row.terms.managedWorkspace = true → row.sandboxCreationStarted = false →
    (∀ c, ¬w.PendingOf a c) ∧ (∀ s, ¬w.SandboxOf a s) ∧ (∀ c s, ¬w.MadeOf a c s) ∧
      row.sandboxProviderId = none
  recorded : row.terms.managedWorkspace = true → ∀ s, row.sandboxProviderId = some s →
    (∀ c, ¬w.PendingOf a c) ∧ (∀ c s', ¬w.MadeOf a c s') ∧ ∀ s', w.SandboxOf a s' → s' = s
  made : row.terms.managedWorkspace = true → ∀ c s, w.MadeOf a c s →
    (∀ c', ¬w.PendingOf a c') ∧ (∀ s', w.SandboxOf a s' → s' = s) ∧
      ∀ c' s', w.MadeOf a c' s' → c' = c
  retiring : ∀ r phase, w.retires r = some ⟨a, phase⟩ → row.active = false ∧
    (row.terms.managedWorkspace = true → Retiring w a row phase)

section Shrinks

variable {w w' : World} {a : AllocationId} {row row' : Allocation}

/-- There is no more of the allocation than there was. -/
structure Shrinks (w w' : World) (a : AllocationId) : Prop where
  pending : ∀ c, w'.PendingOf a c → w.PendingOf a c
  made : ∀ c s, w'.MadeOf a c s → w.MadeOf a c s
  sandbox : ∀ s, w'.SandboxOf a s → w.SandboxOf a s
  retire : ∀ r phase, w'.retires r = some ⟨a, phase⟩ → w.retires r = some ⟨a, phase⟩
  next : w.nextSandbox ≤ w'.nextSandbox

theorem Retiring.shrinks {phase : RetirePhase} (h : Retiring w a row phase)
    (hs : Shrinks w w' a) : Retiring w' a row phase := by
  cases phase with
  | selected started sandbox => exact h
  | destroying claim sandbox => exact h
  | releasing claim =>
    exact ⟨fun c hc => h.1 c (hs.pending c hc), fun s hsandbox => h.2 s (hs.sandbox s hsandbox)⟩

/-- **All that is said of an allocation stays true when less is left of it.** -/
theorem Local.shrinks (h : Local e w a row) (hs : Shrinks w w' a) : Local e w' a row where
  live := h.live
  fresh s hid := Nat.lt_of_lt_of_le (h.fresh s hid) hs.next
  alone hg s₁ s₂ h₁ h₂ := h.alone hg s₁ s₂ (hs.sandbox _ h₁) (hs.sandbox _ h₂)
  either hg c s hc hsandbox := h.either hg c s (hs.pending _ hc) (hs.sandbox _ hsandbox)
  single hg c₁ c₂ h₁ h₂ := h.single hg c₁ c₂ (hs.pending _ h₁) (hs.pending _ h₂)
  held he huse := h.held he (huse.imp (fun ⟨s, hs'⟩ => ⟨s, hs.sandbox s hs'⟩)
    fun ⟨c, hc⟩ => ⟨c, hs.pending c hc⟩)
  unstarted hm hstart := by
    obtain ⟨hp, hsb, hmade, hid⟩ := h.unstarted hm hstart
    exact ⟨fun c hc => hp c (hs.pending c hc), fun s hs' => hsb s (hs.sandbox s hs'),
      fun c s hc => hmade c s (hs.made c s hc), hid⟩
  recorded hm s hid := by
    obtain ⟨hp, hmade, hsb⟩ := h.recorded hm s hid
    exact ⟨fun c hc => hp c (hs.pending c hc), fun c s' hc => hmade c s' (hs.made c s' hc),
      fun s' hs' => hsb s' (hs.sandbox s' hs')⟩
  made hm c s hc := by
    obtain ⟨hp, hsb, hone⟩ := h.made hm c s (hs.made c s hc)
    exact ⟨fun c' hc' => hp c' (hs.pending c' hc'), fun s' hs' => hsb s' (hs.sandbox s' hs'),
      fun c' s' hc' => hone c' s' (hs.made c' s' hc')⟩
  retiring r phase hr := by
    obtain ⟨hactive, hretiring⟩ := h.retiring r phase (hs.retire r phase hr)
    exact ⟨hactive, fun hm => (hretiring hm).shrinks hs⟩

end Shrinks

/-! ## The invariant -/

/-- The volumes that a call has held so far. -/
def CreatePhase.volumes : CreatePhase → List SandboxVolume
  | .holding _ volumes => volumes
  | .asked volumes => volumes
  | .left volumes => volumes
  | _ => []

/-- What a call of `createSandbox` is for. -/
def CreatePhase.For (terms : Terms) : CreatePhase → Prop
  | .requested | .claiming | .retiringHolders => terms.managedWorkspace = true
  | .holding rest _ => ∀ volume ∈ rest, volume ∈ terms.volumes
  | _ => True

def Mounts (e : Prop) (volumes : List SandboxVolume) (key : VolumeKey) : Prop :=
  e ∧ mounts volumes key = true

/-- Who mounts a key holds it. -/
def Holds (e : Prop) (w : World) (a : AllocationId) (node : HoldNode)
    (volumes : List SandboxVolume) : Prop :=
  ∀ key, Mounts e volumes key → w.holds node key = some a

structure Sound (e : Prop) (w : World) : Prop where
  locals : ∀ a row, w.allocations a = some row → Local e w a row
  sandboxes : ∀ s b, w.sandboxes s = some b → s < w.nextSandbox ∧
    ∃ row, w.allocations b.allocation = some row ∧ b.node = volumeHoldNode row.terms ∧
      (∀ key, Mounts e b.volumes key → row.terms.kept e) ∧
        Holds e w b.allocation b.node b.volumes
  creates : ∀ c call, w.creates c = some call →
    (∀ s, call.phase = .made s → s < w.nextSandbox) ∧
    ∃ row, w.allocations call.allocation = some row ∧ call.phase.For row.terms ∧
      (∀ key, Mounts e call.phase.volumes key → row.terms.kept e) ∧
        Holds e w call.allocation (volumeHoldNode row.terms) call.phase.volumes
  retires : ∀ r call, w.retires r = some call → (w.allocations call.allocation).isSome = true
  replaces : ∀ p call, w.replaces p = some call → call.sandbox < w.nextSandbox ∧
    (call.destroyed = true → w.sandboxes call.sandbox = none) ∧
      ∃ row, w.allocations call.allocation = some row ∧ row.terms.managedWorkspace = true

theorem sound_empty (now : Nat) : Sound e (empty now) where
  locals _ _ h := by cases h
  sandboxes _ _ h := by cases h
  creates _ _ h := by cases h
  retires _ _ h := by cases h
  replaces _ _ h := by cases h

/-- **One hold has one sandbox.** -/
theorem Sound.mountedOnce {w : World} (h : Sound True w) : w.MountedOnce := by
  intro s₁ s₂ b₁ b₂ key h₁ h₂ hnode hm₁ hm₂
  obtain ⟨-, row₁, hrow₁, -, hex₁, hheld₁⟩ := h.sandboxes s₁ b₁ h₁
  obtain ⟨-, row₂, -, -, -, hheld₂⟩ := h.sandboxes s₂ b₂ h₂
  have hsame : b₁.allocation = b₂.allocation := by
    refine some.inj ((hheld₁ key ⟨trivial, hm₁⟩).symm.trans ?_)
    rw [hnode]
    exact hheld₂ key ⟨trivial, hm₂⟩
  exact (h.locals _ row₁ hrow₁).alone (.inr (hex₁ key ⟨trivial, hm₁⟩)) s₁ s₂ ⟨b₁, h₁, rfl⟩
    ⟨b₂, h₂, hsame.symm⟩

section Updates

variable {w w' : World} {a : AllocationId} {row row' : Allocation} {c : CallId}
  {phase phase' : CreatePhase} {r : CallId}

/-- What mounts something is a call whose machine is still to make its sandbox. -/
theorem pending_of_mounts {key : VolumeKey} (h : Mounts e phase.volumes key) :
    phase.pending = true := by
  cases phase with
  | holding rest volumes => rfl
  | asked volumes => rfl
  | left volumes => rfl
  | requested => cases h.2
  | claiming => cases h.2
  | retiringHolders => cases h.2
  | made sandbox => cases h.2

theorem setAllocation_self : (w.setAllocation a row').allocations a = some row' :=
  update_self ..

/-- The row of an allocation is updated, its terms aside. -/
theorem Sound.setAllocation (h : Sound e w) (hrow : w.allocations a = some row)
    (hterms : row'.terms = row.terms) (hlocal : Local e w a row') :
    Sound e (w.setAllocation a row') := by
  have hread (b : AllocationId) (r : Allocation) (hr : w.allocations b = some r) :
      ∃ r', (w.setAllocation a row').allocations b = some r' ∧ r'.terms = r.terms := by
    by_cases hb : b = a
    · subst hb
      cases hrow.symm.trans hr
      exact ⟨row', update_self .., hterms⟩
    · exact ⟨r, (update_of_ne hb ..).trans hr, rfl⟩
  refine ⟨fun b r hr => ?_, fun s b hs => ?_, fun c call hc => ?_, fun r call hr => ?_,
    fun p call hp => ?_⟩
  · rcases Table.update_some hr with ⟨rfl, rfl⟩ | ⟨-, hr⟩
    · exact hlocal.shrinks ⟨fun _ h => h, fun _ _ h => h, fun _ h => h, fun _ _ h => h,
        Nat.le_refl _⟩
    · exact (h.locals b r hr).shrinks ⟨fun _ h => h, fun _ _ h => h, fun _ h => h,
        fun _ _ h => h, Nat.le_refl _⟩
  · obtain ⟨hlt, r, hr, hnode, hex, hholds⟩ := h.sandboxes s b hs
    obtain ⟨r', hr', heq⟩ := hread _ r hr
    exact ⟨hlt, r', hr', heq ▸ hnode, fun key hkey => heq ▸ hex key hkey, hholds⟩
  · obtain ⟨hlt, r, hr, hfor, hex, hholds⟩ := h.creates c call hc
    obtain ⟨r', hr', heq⟩ := hread _ r hr
    exact ⟨hlt, r', hr', heq ▸ hfor, fun key hkey => heq ▸ hex key hkey, heq ▸ hholds⟩
  · obtain ⟨r', hr'⟩ := isSome_iff_exists.mp (h.retires r call hr)
    obtain ⟨r'', hr'', -⟩ := hread _ r' hr'
    exact isSome_iff_exists.mpr ⟨r'', hr''⟩
  · obtain ⟨hlt, hgone, r, hr, hm⟩ := h.replaces p call hp
    obtain ⟨r', hr', heq⟩ := hread _ r hr
    exact ⟨hlt, hgone, r', hr', heq ▸ hm⟩

/-- Holds may change, as long as who has a sandbox, or has one on its way, keeps its own. -/
theorem Sound.setHolds (h : Sound e w) (holds : HoldNode → VolumeKey → Option AllocationId)
    (hkeep : ∀ a row, w.allocations a = some row → row.terms.kept e →
      (∃ s, w.SandboxOf a s) ∨ (∃ c, w.PendingOf a c) →
        ∀ node key, w.holds node key = some a → holds node key = some a) :
    Sound e { w with holds } := by
  refine ⟨fun b r hr => ?_, fun s b hs => ?_, fun c call hc => ?_, h.retires, h.replaces⟩
  · exact (h.locals b r hr).shrinks ⟨fun _ h => h, fun _ _ h => h, fun _ h => h, fun _ _ h => h,
      Nat.le_refl _⟩
  · obtain ⟨hlt, r, hr, hnode, hex, hholds⟩ := h.sandboxes s b hs
    exact ⟨hlt, r, hr, hnode, hex, fun key hkey =>
      hkeep _ r hr (hex key hkey) (.inl ⟨s, b, hs, rfl⟩) _ key (hholds key hkey)⟩
  · obtain ⟨hlt, r, hr, hfor, hex, hholds⟩ := h.creates c call hc
    refine ⟨hlt, r, hr, hfor, hex, fun key hkey => ?_⟩
    exact hkeep _ r hr (hex key hkey) (.inr ⟨c, call.phase, hc, pending_of_mounts hkey⟩) _ key
      (hholds key hkey)

/-- A call that goes on has no more on its way than before. -/
theorem createGoesOn_shrinks (hpending : phase'.pending = true → w.PendingOf a c)
    (hmade : ∀ s, phase' ≠ .made s) (b : AllocationId) : Shrinks w (w.createGoesOn c a phase')
      b := by
  refine ⟨fun d hd => ?_, fun d s hd => ?_, fun _ hs => hs, fun _ _ hr => hr, Nat.le_refl _⟩
  · obtain ⟨other, hother, hp⟩ := hd
    rcases Table.update_some hother with ⟨rfl, heq⟩ | ⟨-, hother⟩
    · obtain ⟨rfl, rfl⟩ := Create.mk.inj heq
      exact hpending hp
    · exact ⟨other, hother, hp⟩
  · rcases Table.update_some hd with ⟨rfl, heq⟩ | ⟨-, hd⟩
    · exact absurd (Create.mk.inj heq).2.symm (hmade s)
    · exact hd

/-- A call of `createSandbox` goes on. -/
theorem Sound.createGoesOn (h : Sound e w) (hrow : w.allocations a = some row)
    (hc : w.creates c = some ⟨a, phase⟩)
    (hpending : phase'.pending = true → phase.pending = true) (hmade : ∀ s, phase' ≠ .made s)
    (hfor : phase'.For row.terms) (hvolumes : ∀ key, Mounts e phase'.volumes key →
      row.terms.kept e ∧ w.holds (volumeHoldNode row.terms) key = some a) :
    Sound e (w.createGoesOn c a phase') := by
  refine ⟨fun b r hr => (h.locals b r hr).shrinks (createGoesOn_shrinks
      (fun hp => ⟨phase, hc, hpending hp⟩) hmade b), h.sandboxes, fun d call hd => ?_, h.retires,
        h.replaces⟩
  rcases Table.update_some hd with ⟨rfl, rfl⟩ | ⟨-, hd⟩
  · exact ⟨fun s hs => absurd hs (hmade s), row, hrow, hfor, fun key hkey => (hvolumes key hkey).1,
      fun key hkey => (hvolumes key hkey).2⟩
  · exact h.creates d call hd

theorem createEnds_shrinks (b : AllocationId) : Shrinks w (w.createEnds c) b := by
  refine ⟨fun d hd => ?_, fun d s hd => ?_, fun _ hs => hs, fun _ _ hr => hr, Nat.le_refl _⟩
  · obtain ⟨other, hother, hp⟩ := hd
    exact ⟨other, (Table.update_none hother).2, hp⟩
  · exact (Table.update_none hd).2

theorem Sound.createEnds (h : Sound e w) : Sound e (w.createEnds c) where
  __ := h
  locals b r hr := (h.locals b r hr).shrinks (createEnds_shrinks b)
  creates d call hd := h.creates d call (Table.update_none hd).2

theorem destroy_shrinks (s : SandboxId) (b : AllocationId) : Shrinks w (w.destroy s) b := by
  refine ⟨fun _ hd => hd, fun _ _ hd => hd, fun s' hs => ?_, fun _ _ hr => hr, Nat.le_refl _⟩
  obtain ⟨box, hbox, hb⟩ := hs
  exact ⟨box, (Table.update_none hbox).2, hb⟩

theorem Sound.destroy (h : Sound e w) (s : SandboxId) : Sound e (w.destroy s) where
  __ := h
  locals b r hr := (h.locals b r hr).shrinks (destroy_shrinks s b)
  sandboxes s' b hs := h.sandboxes s' b (Table.update_none hs).2
  replaces p call hp := by
    obtain ⟨hlt, hgone, hm⟩ := h.replaces p call hp
    refine ⟨hlt, fun hd => ?_, hm⟩
    by_cases hs : call.sandbox = s
    · exact hs ▸ update_self ..
    · exact (update_of_ne hs ..).trans (hgone hd)

theorem Sound.retireEnds (h : Sound e w) (r : CallId) : Sound e (w.retireEnds r) where
  __ := h
  locals b row hrow := (h.locals b row hrow).shrinks ⟨fun _ h => h, fun _ _ h => h, fun _ h => h,
    fun _ _ hr => (Table.update_none hr).2, Nat.le_refl _⟩
  retires r' call hr := h.retires r' call (Table.update_none hr).2

/-- A call of `retireAllocation` goes on, for an allocation that is released. -/
theorem Sound.retireGoesOn (h : Sound e w) {phase : RetirePhase}
    (hrow : w.allocations a = some row) (hactive : row.active = false)
    (hretiring : row.terms.managedWorkspace = true → Retiring w a row phase) :
    Sound e (w.retireGoesOn r a phase) := by
  refine ⟨fun b row' hrow' => ?_, h.sandboxes, h.creates, fun r' call hr => ?_, h.replaces⟩
  · have hlocal := h.locals b row' hrow'
    refine { hlocal with retiring := fun r' phase' hr => ?_ }
    rcases Table.update_some hr with ⟨rfl, heq⟩ | ⟨-, hr⟩
    · obtain ⟨rfl, rfl⟩ := Retire.mk.inj heq
      cases hrow.symm.trans hrow'
      exact ⟨hactive, hretiring⟩
    · exact hlocal.retiring r' phase' hr
  · rcases Table.update_some hr with ⟨rfl, rfl⟩ | ⟨-, hr⟩
    · exact isSome_iff_exists.mpr ⟨row, hrow⟩
    · exact h.retires r' call hr

/-! ## Steps -/

/-- Nothing mounts a volume of an allocation that is idle, or has no exclusive one. -/
theorem Sound.endHolds (h : Sound e w) (hend : ∀ row, w.allocations a = some row →
    row.terms.kept e → w.Idle a) :
    Sound e { w with holds := fun node key => (w.holds node key).filter (· ≠ a) } := by
  refine h.setHolds _ fun b row hrow hex huse node key hheld => ?_
  have hb : b ≠ a := by
    rintro rfl
    have hidle := hend row hrow hex
    rcases huse with ⟨s, hs⟩ | ⟨c, hc⟩
    · exact hidle.sandbox s hs
    · exact hidle.pending c hc
  rw [hheld]
  exact filter_some_pos (decide_eq_true hb)

/-- **An allocation ends**: one on no worker node, or whose capacity is released, only while it
is idle. -/
theorem Sound.endAllocation (h : Sound e w) (hrow : w.allocations a = some row)
    (hterms : row'.terms = row.terms) (hlocal : Local e w a row')
    (hidle : (row'.capacityReleased || (!row'.active && row'.terms.workerNodeId.isNone)) = true →
      row.terms.kept e → w.Idle a) :
    Sound e (w.endAllocation a row') := by
  have hset := h.setAllocation hrow hterms hlocal
  rw [World.endAllocation]
  split
  · rename_i hends
    refine hset.endHolds fun r hr hex => ?_
    cases setAllocation_self.symm.trans hr
    have hnone := hidle hends (hterms ▸ hex)
    exact ⟨hnone.sandboxes, hnone.creates⟩
  · exact hset

/-- Only the maintenance of an allocation changes. -/
theorem Local.maintain (h : Local e w a row) (hterms : row'.terms = row.terms)
    (hactive : row'.active = row.active) (hreleased : row'.capacityReleased = row.capacityReleased)
    (hstarted : row'.sandboxCreationStarted = row.sandboxCreationStarted)
    (hid : row'.sandboxProviderId = row.sandboxProviderId) : Local e w a row' := by
  obtain ⟨terms', active', released', started', id', claim', until''⟩ := row'
  subst hterms hactive hreleased hstarted hid
  exact ⟨h.live, h.fresh, h.alone, h.either, h.single, h.held, h.unstarted, h.recorded, h.made,
    fun r phase hr => by
      obtain ⟨hinactive, hretiring⟩ := h.retiring r phase hr
      refine ⟨hinactive, fun hm => ?_⟩
      have hknown := hretiring hm
      cases phase with
      | selected started sandbox => exact hknown
      | destroying claim sandbox => exact hknown
      | releasing claim => exact hknown⟩

/-- A row ends: its capacity is released only when it is idle. -/
theorem Local.ends (h : Local e w a row) (hterms : row'.terms = row.terms)
    (hactive : row'.active = false)
    (hstarted : row'.sandboxCreationStarted = row.sandboxCreationStarted)
    (hid : row'.sandboxProviderId = row.sandboxProviderId)
    (hheld : row.terms.kept e → ¬w.Idle a →
      row'.capacityReleased = false ∧ row.terms.workerNodeId.isSome = true) :
    Local e w a row' := by
  refine ⟨fun hact => ?_, ?_, ?_, ?_, ?_, ?_, ?_, ?_, ?_, fun r phase hr => ⟨hactive, ?_⟩⟩
  · rw [hactive] at hact
    cases hact
  · rw [hid]
    exact h.fresh
  · rw [hterms]
    exact h.alone
  · rw [hterms]
    exact h.either
  · rw [hterms]
    exact h.single
  · rw [hterms]
    intro hex huse
    have hbusy : ¬w.Idle a := by
      intro hidle
      rcases huse with ⟨s, hs⟩ | ⟨c, hc⟩
      · exact hidle.sandbox s hs
      · exact hidle.pending c hc
    obtain ⟨hreleased, hworker⟩ := hheld hex hbusy
    exact ⟨hreleased, .inr hworker⟩
  · rw [hterms, hstarted, hid]
    exact h.unstarted
  · rw [hterms, hid]
    exact h.recorded
  · rw [hterms]
    exact h.made
  · rw [hterms]
    intro hm
    have hknown := (h.retiring r phase hr).2 hm
    cases phase with
    | selected started sandbox => exact ⟨hknown.1.trans hstarted.symm, hid ▸ hknown.2⟩
    | destroying claim sandbox => exact ⟨hstarted ▸ hknown.1, hid ▸ hknown.2⟩
    | releasing claim => exact hknown

theorem Sound.allocate (h : Sound e w) {terms : Terms} (hnone : w.allocations a = none) :
    Sound e (w.setAllocation a { terms }) := by
  -- Whatever there is belongs to an allocation that was there.
  have hne {b : AllocationId} (hb : ∃ r, w.allocations b = some r) : b ≠ a := by
    rintro rfl
    obtain ⟨r, hr⟩ := hb
    rw [hnone] at hr
    cases hr
  have hkeep {b : AllocationId} {r : Allocation} (hr : w.allocations b = some r) :
      (w.setAllocation a { terms }).allocations b = some r :=
    (update_of_ne (hne ⟨r, hr⟩) ..).trans hr
  have hpending (c : CallId) : ¬w.PendingOf a c := by
    rintro ⟨phase, hc, -⟩
    obtain ⟨-, r, hr, -⟩ := h.creates c _ hc
    exact hne ⟨r, hr⟩ rfl
  have hmade (c : CallId) (s : SandboxId) : ¬w.MadeOf a c s := by
    intro hc
    obtain ⟨-, r, hr, -⟩ := h.creates c _ hc
    exact hne ⟨r, hr⟩ rfl
  have hsandbox (s : SandboxId) : ¬w.SandboxOf a s := by
    rintro ⟨b, hb, rfl⟩
    obtain ⟨-, r, hr, -⟩ := h.sandboxes s b hb
    exact hne ⟨r, hr⟩ rfl
  have hnew : Local e w a { terms } := by
    refine ⟨fun _ => rfl, fun s hs => ?_, fun _ s₁ s₂ h₁ _ => absurd h₁ (hsandbox s₁),
      fun _ c _ hc _ => hpending c hc, fun _ c₁ c₂ h₁ _ => absurd h₁ (hpending c₁),
      fun _ _ => ⟨rfl, .inl rfl⟩, fun _ _ => ⟨hpending, hsandbox, hmade, rfl⟩,
      fun _ s hs => ?_, fun _ c s hc => absurd hc (hmade c s), fun r phase hr => ?_⟩
    · cases hs
    · cases hs
    · exact absurd rfl (hne (isSome_iff_exists.mp (h.retires r _ hr)))
  refine ⟨fun b r hr => ?_, fun s b hs => ?_, fun c call hc => ?_, fun r call hr => ?_,
    fun p call hp => ?_⟩
  · rcases Table.update_some hr with ⟨rfl, rfl⟩ | ⟨-, hr⟩
    · exact hnew.shrinks ⟨fun _ h => h, fun _ _ h => h, fun _ h => h, fun _ _ h => h, Nat.le_refl _⟩
    · exact (h.locals b r hr).shrinks ⟨fun _ h => h, fun _ _ h => h, fun _ h => h,
        fun _ _ h => h, Nat.le_refl _⟩
  · obtain ⟨hlt, r, hr, hrest⟩ := h.sandboxes s b hs
    exact ⟨hlt, r, hkeep hr, hrest⟩
  · obtain ⟨hlt, r, hr, hrest⟩ := h.creates c call hc
    exact ⟨hlt, r, hkeep hr, hrest⟩
  · obtain ⟨r', hr'⟩ := isSome_iff_exists.mp (h.retires r call hr)
    exact isSome_iff_exists.mpr ⟨r', hkeep hr'⟩
  · obtain ⟨hlt, hgone, r, hr, hm⟩ := h.replaces p call hp
    exact ⟨hlt, hgone, r, hkeep hr, hm⟩

/-- A call comes to be that may have a sandbox made: of an allocation that has none. -/
theorem Local.begins (h : Local e w a row) (hidle : row.terms.guarded e → w.Idle a)
    (hlive : row.terms.kept e → row.active = true)
    (hstarted : row.terms.managedWorkspace = true → row.sandboxCreationStarted = true ∧
      row.active = true ∧ row.sandboxProviderId = none ∧ ∀ c s, ¬w.MadeOf a c s)
    (hpending : phase'.pending = true) : Local e (w.createGoesOn c a phase') a row := by
  have hcall {d : CallId} {other : CreatePhase}
      (hd : (w.createGoesOn c a phase').creates d = some ⟨a, other⟩) :
      d = c ∧ other = phase' ∨ w.creates d = some ⟨a, other⟩ := by
    rcases Table.update_some hd with ⟨rfl, heq⟩ | ⟨-, hd⟩
    · exact .inl ⟨rfl, (Create.mk.inj heq).2⟩
    · exact .inr hd
  have hmade {d : CallId} {s : SandboxId} (hd : (w.createGoesOn c a phase').MadeOf a d s) :
      w.MadeOf a d s := by
    rcases hcall hd with ⟨-, heq⟩ | hd
    · rw [← heq] at hpending
      cases hpending
    · exact hd
  have hone (hg : row.terms.guarded e) {d : CallId}
      (hd : (w.createGoesOn c a phase').PendingOf a d) : d = c := by
    obtain ⟨other, hother, hp⟩ := hd
    rcases hcall hother with ⟨heq, -⟩ | hd
    · exact heq
    · exact absurd ⟨other, hd, hp⟩ ((hidle hg).pending d)
  refine ⟨h.live, h.fresh, fun hg s₁ s₂ h₁ => absurd h₁ ((hidle hg).sandbox s₁),
    fun hg d s _ => (hidle hg).sandbox s, fun hg c₁ c₂ h₁ h₂ => (hone hg h₁).trans
      (hone hg h₂).symm,
    fun hex _ => ⟨h.live (hlive hex), .inl (hlive hex)⟩, fun hm hno => ?_, fun hm s hid => ?_,
    fun hm d s hd => absurd (hmade hd) ((hstarted hm).2.2.2 d s), fun r phase hr => ?_⟩
  · rw [(hstarted hm).1] at hno
    cases hno
  · rw [(hstarted hm).2.2.1] at hid
    cases hid
  · obtain ⟨hinactive, hretiring⟩ := h.retiring r phase hr
    refine ⟨hinactive, fun hm => ?_⟩
    rw [(hstarted hm).2.1] at hinactive
    cases hinactive

section

variable (h : Sound e w) (hrow : w.allocations a = some row) {volumes : List SandboxVolume}
include h hrow

/-- A call that may have a sandbox made, of which others know nothing. -/
theorem Sound.begins
    (hlocal : Local e (w.createGoesOn c a phase') a row) (hmade : ∀ s, phase' ≠ .made s)
    (hfor : phase'.For row.terms) (hvolumes : phase'.volumes = []) :
    Sound e (w.createGoesOn c a phase') := by
  refine ⟨fun b r hr => ?_, h.sandboxes, fun d call hd => ?_, h.retires, h.replaces⟩
  · by_cases hb : b = a
    · subst hb
      cases hrow.symm.trans hr
      exact hlocal
    · refine (h.locals b r hr).shrinks ⟨fun d hd => ?_, fun d s hd => ?_, fun _ hs => hs,
        fun _ _ hr => hr, Nat.le_refl _⟩
      · obtain ⟨other, hother, hp⟩ := hd
        rcases Table.update_some hother with ⟨-, heq⟩ | ⟨-, hother⟩
        · exact absurd (Create.mk.inj heq).1 hb
        · exact ⟨other, hother, hp⟩
      · rcases Table.update_some hd with ⟨-, heq⟩ | ⟨-, hd⟩
        · exact absurd (Create.mk.inj heq).1 hb
        · exact hd
  · rcases Table.update_some hd with ⟨rfl, rfl⟩ | ⟨-, hd⟩
    · refine ⟨fun s hs => absurd hs (hmade s), row, hrow, hfor, fun key hkey => ?_,
        fun key hkey => ?_⟩
      · rw [hvolumes] at hkey
        cases hkey.2
      · rw [hvolumes] at hkey
        cases hkey.2
    · exact h.creates d call hd

omit h hrow in
theorem idle_of (hpending : ∀ c, ¬w.PendingOf a c) (hsandbox : ∀ s, ¬w.SandboxOf a s) :
    w.Idle a where
  sandboxes s b hs ha := hsandbox s ⟨b, hs, ha⟩
  creates c call hc hp ha := hpending c ⟨call.phase, by rw [hc, ← ha], hp⟩

omit h hrow in
/-- **The machine makes the sandbox of a call**: it was the only one that could. -/
theorem Local.makes (h : Local e w a row) (hc : w.PendingOf a c)
    (hpending : ∀ d, w'.PendingOf a d → w.PendingOf a d ∧ d ≠ c)
    (hmade : ∀ d s, w'.MadeOf a d s → w.MadeOf a d s ∨ d = c ∧ s = w.nextSandbox)
    (hsandbox : ∀ s, w'.SandboxOf a s → w.SandboxOf a s ∨ s = w.nextSandbox)
    (hretire : w'.retires = w.retires) (hnext : w'.nextSandbox = w.nextSandbox + 1) :
    Local e w' a row := by
  have hnone (hg : row.terms.guarded e) (d : CallId) : ¬w'.PendingOf a d := by
    intro hd
    obtain ⟨hd, hne⟩ := hpending d hd
    exact hne (h.single hg d c hd hc)
  have hnew (hg : row.terms.guarded e) (s : SandboxId) (hs : w'.SandboxOf a s) :
      s = w.nextSandbox :=
    (hsandbox s hs).resolve_left (h.either hg c s hc)
  have hold (hm : row.terms.managedWorkspace = true) (d : CallId) (s : SandboxId) :
      ¬w.MadeOf a d s := fun hd => (h.made hm d s hd).1 c hc
  refine ⟨h.live, fun s hid => ?_, fun hg s₁ s₂ h₁ h₂ => (hnew hg s₁ h₁).trans (hnew hg s₂ h₂).symm,
    fun hg d s hd => absurd hd (hnone hg d), fun hg c₁ c₂ h₁ => absurd h₁ (hnone hg c₁),
    fun hex _ => h.held hex (.inr ⟨c, hc⟩), fun hm hno => absurd hc ((h.unstarted hm hno).1 c),
    fun hm s hid => absurd hc ((h.recorded hm s hid).1 c), fun hm d s hd => ?_,
    fun r phase hr => ?_⟩
  · rw [hnext]
    exact Nat.lt_succ_of_lt (h.fresh s hid)
  · obtain ⟨rfl, rfl⟩ := (hmade d s hd).resolve_left (hold hm d s)
    refine ⟨hnone (.inl hm), hnew (.inl hm), fun d' s' hd' => ?_⟩
    exact ((hmade d' s' hd').resolve_left (hold hm d' s')).1
  · rw [hretire] at hr
    obtain ⟨hinactive, hretiring⟩ := h.retiring r phase hr
    refine ⟨hinactive, fun hm => ?_⟩
    have hknown := hretiring hm
    cases phase with
    | selected started sandbox => exact hknown
    | destroying claim sandbox => exact hknown
    | releasing claim => exact absurd hc (hknown.1 c)

/-- The machine makes a sandbox, and its call is told or is gone. -/
theorem Sound.makes {creates : CallId → Option Create} (hc : w.creates c = some ⟨a, phase⟩)
    (hpending : phase.pending = true) (hvolumes : phase.volumes = volumes)
    (hcreates : ∀ d call, creates d = some call →
      d = c ∧ call = ⟨a, .made w.nextSandbox⟩ ∨ d ≠ c ∧ w.creates d = some call) :
    Sound e { w with
      sandboxes := update w.sandboxes w.nextSandbox
        (some ⟨a, volumeHoldNode row.terms, volumes⟩)
      nextSandbox := w.nextSandbox + 1
      creates := creates } := by
  obtain ⟨-, row₀, hrow₀, -, hex, hholds⟩ := h.creates c _ hc
  cases hrow.symm.trans hrow₀
  simp only [hvolumes] at hex hholds
  have hother {d : CallId} {b : AllocationId} {other : CreatePhase}
      (hd : creates d = some ⟨b, other⟩) (hp : other.pending = true) :
      w.creates d = some ⟨b, other⟩ ∧ d ≠ c := by
    rcases hcreates d _ hd with ⟨-, heq⟩ | ⟨hne, hd⟩
    · rw [(Create.mk.inj heq).2] at hp
      cases hp
    · exact ⟨hd, hne⟩
  refine ⟨fun b r hr => ?_, fun s b hs => ?_, fun d call hd => ?_, h.retires, fun p call hp => ?_⟩
  · by_cases hb : b = a
    · subst hb
      cases hrow.symm.trans hr
      have hcall : w.PendingOf b c := ⟨phase, hc, hpending⟩
      refine (h.locals b row hr).makes hcall (fun d hd => ?_) (fun d s hd => ?_) (fun s hs => ?_)
        rfl rfl
      · obtain ⟨other, hd, hp⟩ := hd
        exact ⟨⟨other, (hother hd hp).1, hp⟩, (hother hd hp).2⟩
      · rcases hcreates d _ hd with ⟨hdc, heq⟩ | ⟨-, hd⟩
        · exact .inr ⟨hdc, CreatePhase.made.inj (Create.mk.inj heq).2⟩
        · exact .inl hd
      · obtain ⟨box, hbox, hb⟩ := hs
        rcases Table.update_some hbox with ⟨rfl, -⟩ | ⟨-, hbox⟩
        · exact .inr rfl
        · exact .inl ⟨box, hbox, hb⟩
    · refine (h.locals b r hr).shrinks ⟨fun d hd => ?_, fun d s hd => ?_, fun s hs => ?_,
        fun _ _ hr => hr, Nat.le_succ _⟩
      · obtain ⟨other, hd, hp⟩ := hd
        exact ⟨other, (hother hd hp).1, hp⟩
      · rcases hcreates d _ hd with ⟨-, heq⟩ | ⟨-, hd⟩
        · exact absurd (Create.mk.inj heq).1 hb
        · exact hd
      · obtain ⟨box, hbox, hba⟩ := hs
        rcases Table.update_some hbox with ⟨-, rfl⟩ | ⟨-, hbox⟩
        · exact absurd hba.symm hb
        · exact ⟨box, hbox, hba⟩
  · rcases Table.update_some hs with ⟨rfl, rfl⟩ | ⟨-, hs⟩
    · exact ⟨Nat.lt_succ_self _, row, hrow, rfl, hex, hholds⟩
    · obtain ⟨hlt, hrest⟩ := h.sandboxes s b hs
      exact ⟨Nat.lt_succ_of_lt hlt, hrest⟩
  · rcases hcreates d call hd with ⟨rfl, rfl⟩ | ⟨-, hd⟩
    · refine ⟨fun s hs => ?_, row, hrow, trivial, fun key hkey => ?_, fun key hkey => ?_⟩
      · rw [← CreatePhase.made.inj hs]
        exact Nat.lt_succ_self _
      · cases hkey.2
      · cases hkey.2
    · obtain ⟨hlt, hrest⟩ := h.creates d call hd
      exact ⟨fun s hs => Nat.lt_succ_of_lt (hlt s hs), hrest⟩
  · obtain ⟨hlt, hgone, hm⟩ := h.replaces p call hp
    exact ⟨Nat.lt_succ_of_lt hlt, fun hd =>
      (update_of_ne (Nat.ne_of_lt hlt) ..).trans (hgone hd), hm⟩

section

variable (hm : row.terms.managedWorkspace = true) {s : SandboxId}
include hm

/-- The allocation's one creation is claimed. -/
theorem Sound.claims (hactive : row.active = true) (hstarted : row.sandboxCreationStarted = false) :
    Sound e ((w.setAllocation a { row with sandboxCreationStarted := true }).createGoesOn c a
      .retiringHolders) := by
  have hlocal := h.locals a row hrow
  obtain ⟨hpending, hsandbox, hmade, hid⟩ := hlocal.unstarted hm hstarted
  have hset : Local e w a { row with sandboxCreationStarted := true } := by
    refine { hlocal with
      unstarted := fun _ hno => by cases hno
      retiring := fun r phase hr => ?_ }
    have hinactive := (hlocal.retiring r phase hr).1
    rw [hactive] at hinactive
    cases hinactive
  have hsound : Sound e (w.setAllocation a { row with sandboxCreationStarted := true }) :=
    h.setAllocation hrow rfl hset
  refine hsound.begins setAllocation_self ?_ (fun _ heq => by cases heq) hm rfl
  refine Local.begins (w := w.setAllocation a _) (hset.shrinks ⟨fun _ h => h, fun _ _ h => h,
    fun _ h => h, fun _ _ h => h, Nat.le_refl _⟩) (fun _ => ?_) (fun _ => hactive)
    (fun _ => ⟨rfl, hactive, hid, hmade⟩) rfl
  exact idle_of (w := w.setAllocation a _) hpending hsandbox

omit hm in
/-- `holdVolumes` takes a volume that nobody uses, or leaves it. -/
theorem Sound.holdVolume {volume : Volume} {rest : List Volume}
    (hc : w.creates c = some ⟨a, .holding (volume :: rest) volumes⟩) :
    Sound e ((w.holdVolume a (volumeHoldNode row.terms) volume).1.createGoesOn c a
      (.holding rest (volumes ++ [(w.holdVolume a (volumeHoldNode row.terms) volume).2]))) := by
  obtain ⟨-, row₀, hrow₀, hfor, hex, hholds⟩ := h.creates c _ hc
  cases hrow.symm.trans hrow₀
  have hrest : ∀ v ∈ rest, v ∈ row.terms.volumes := fun v hv => hfor v (List.mem_cons_of_mem _ hv)
  -- What is mounted is what was mounted before, or the volume as it was held.
  have hmounts {mounted : SandboxVolume} {key : VolumeKey}
      (hkey : Mounts e (volumes ++ [mounted]) key) :
      Mounts e volumes key ∨
        mounted.key = key ∧ mounted.exclusive = true ∧ mounted.temporary = false := by
    obtain ⟨he, hkey⟩ := hkey
    rw [mounts, List.any_append, Bool.or_eq_true] at hkey
    refine hkey.imp (.intro he) fun hlast => ?_
    simpa [and_assoc] using hlast
  rw [World.holdVolume]
  split
  · rename_i hshared
    refine h.createGoesOn hrow hc (fun hp => hp) (fun _ heq => by cases heq) hrest fun key hkey =>
      ?_
    rcases hmounts hkey with hkey | ⟨-, hfalse, -⟩
    · exact ⟨hex key hkey, hholds key hkey⟩
    · cases hfalse
  · rename_i hexclusive
    have hexclusive : row.terms.exclusive = true :=
      List.any_eq_true.mpr ⟨volume, hfor volume List.mem_cons_self, by simpa using hexclusive⟩
    split
    · rename_i htaken
      have htaken (holder : AllocationId)
          (hheld : w.holds (volumeHoldNode row.terms) volume.key = some holder) :
          holder = a ∨ w.holderLive holder = false := by
        rw [hheld] at htaken
        simpa using htaken
      have hhold : Sound e (w.setHold (volumeHoldNode row.terms) volume.key a) := by
        refine h.setHolds _ fun b r hr hb huse node key hheld => ?_
        by_cases hnode : node = volumeHoldNode row.terms
        · subst hnode
          by_cases hkey : key = volume.key
          · subst hkey
            rw [update_self, update_self]
            rcases htaken b hheld with rfl | hdead
            · rfl
            · -- The hold of one that has a sandbox, or one on its way, is live.
              obtain ⟨hreleased, hlive⟩ := (h.locals b r hr).held hb huse
              rw [World.holderLive, hr] at hdead
              rcases hlive with hlive | hlive <;> simp [hreleased, hlive] at hdead
          · rw [update_self, update_of_ne hkey]
            exact hheld
        · rw [update_of_ne hnode]
          exact hheld
      have hself : (w.setHold (volumeHoldNode row.terms) volume.key a).holds
          (volumeHoldNode row.terms) volume.key = some a := by
        rw [World.setHold]
        simp
      refine hhold.createGoesOn hrow hc (fun hp => hp) (fun _ heq => by cases heq) hrest fun key
        hkey => ?_
      refine ⟨⟨hkey.1, hexclusive⟩, ?_⟩
      by_cases hsame : key = volume.key
      · exact hsame ▸ hself
      · rcases hmounts hkey with hkey | ⟨heq, -, -⟩
        · rw [World.setHold]
          simp only [update_self, update_of_ne hsame]
          exact hholds key hkey
        · exact absurd heq.symm hsame
    · refine h.createGoesOn hrow hc (fun hp => hp) (fun _ heq => by cases heq) hrest fun key hkey =>
        ?_
      rcases hmounts hkey with hkey | ⟨-, -, hfalse⟩
      · exact ⟨hex key hkey, hholds key hkey⟩
      · cases hfalse

/-- A managed allocation is told its sandbox. -/
theorem Sound.records (hc : w.creates c = some ⟨a, .made s⟩) :
    Sound e ((w.setAllocation a { row with sandboxProviderId := some s }).createEnds c) := by
  have hlocal := h.locals a row hrow
  obtain ⟨hpending, hsandbox, hone⟩ := hlocal.made hm c s hc
  have hid : row.sandboxProviderId = none := by
    cases hid : row.sandboxProviderId with
    | none => rfl
    | some s' => exact absurd hc ((hlocal.recorded hm s' hid).2.1 c s)
  have hstarted : row.sandboxCreationStarted = true := by
    cases hstarted : row.sandboxCreationStarted with
    | true => rfl
    | false => exact absurd hc ((hlocal.unstarted hm hstarted).2.2.1 c s)
  have hends : Local e (w.createEnds c) a row := hlocal.shrinks (createEnds_shrinks a)
  have hmade (d : CallId) (s' : SandboxId) : ¬(w.createEnds c).MadeOf a d s' := by
    intro hd
    obtain ⟨hne, hd⟩ := Table.update_none hd
    exact hne (hone d s' hd)
  have hset : Local e (w.createEnds c) a { row with sandboxProviderId := some s } := by
    refine { hends with
      fresh := fun s' hs' => some.inj hs' ▸ (h.creates c _ hc).1 s rfl
      unstarted := fun _ hno => by rw [hstarted] at hno; cases hno
      recorded := fun _ s' hs' => ⟨?_, hmade, ?_⟩
      retiring := fun r phase hr => ?_ }
    · exact fun d hd => hpending d ((createEnds_shrinks a).pending d hd)
    · intro s'' hs''
      rw [← some.inj hs']
      exact hsandbox s'' hs''
    · obtain ⟨hinactive, hretiring⟩ := hends.retiring r phase hr
      refine ⟨hinactive, fun _ => ?_⟩
      have hknown := hretiring hm
      cases phase with
      | selected started sandbox | destroying claim sandbox =>
        refine ⟨hknown.1, fun s' hs' => ?_⟩
        have hnone := hknown.2 s' hs'
        rw [hid] at hnone
        cases hnone
      | releasing claim => exact hknown
  have hsound : Sound e (w.createEnds c) := h.createEnds
  have hback : (w.createEnds c).allocations a = some row := hrow
  have hnext : Sound e ((w.createEnds c).setAllocation a { row with sandboxProviderId := some s }) :=
    hsound.setAllocation hback rfl hset
  exact hnext

/-- A replaced sandbox is gone: the allocation may have another one made. -/
theorem Sound.resets (hactive : row.active = true)
    (hid : row.sandboxProviderId = some s) (hgone : w.sandboxes s = none) : Sound e (w.setAllocation a
      { row with sandboxProviderId := none, sandboxCreationStarted := false }) := by
  have hlocal := h.locals a row hrow
  obtain ⟨hpending, hmade, hsandbox⟩ := hlocal.recorded hm s hid
  have hnone (s' : SandboxId) : ¬w.SandboxOf a s' := by
    intro hs'
    obtain rfl := hsandbox s' hs'
    obtain ⟨b, hb, -⟩ := hs'
    rw [hgone] at hb
    cases hb
  refine h.setAllocation hrow rfl { hlocal with
    fresh := fun _ hs' => by cases hs'
    unstarted := fun _ _ => ⟨hpending, hnone, hmade, rfl⟩
    recorded := fun _ _ hs' => by cases hs'
    retiring := fun r phase hr => ?_ }
  have hinactive := (hlocal.retiring r phase hr).1
  rw [hactive] at hinactive
  cases hinactive

end

end

section

variable (h : Sound e w)
include h

/-- An allocation that is released stays as it is for its sandbox, or is idle. -/
theorem Sound.release (hok : e → Careful w (.release a)) :
    Sound e (w.endWhere a (·.active) fun row => { row with active := false }) := by
  rw [World.endWhere]
  cases hrow : w.allocations a with
  | none => exact h
  | some row =>
    simp only
    split
    · rename_i hactive
      have hlocal := h.locals a row hrow
      have hreleased := hlocal.live hactive
      have hidle (hex : row.terms.kept e) (hnode : row.terms.workerNodeId = none) :
          w.Idle a := hok hex.1 a row hrow hex.2 rfl hnode
      refine h.endAllocation hrow rfl ?_ fun hends hex => ?_
      · refine hlocal.ends rfl rfl rfl rfl fun hex hbusy => ⟨hreleased, ?_⟩
        cases hnode : row.terms.workerNodeId with
        | none => exact absurd (hidle hex hnode) hbusy
        | some node => rfl
      · refine hidle hex ?_
        simpa [hreleased] using hends
    · exact h

/-- Capacity is released while the allocation is idle. -/
theorem Sound.gives {which : Allocation → Bool} {set : Allocation → Allocation}
    (hset : ∀ row, w.allocations a = some row → which row = true →
      (set row).terms = row.terms ∧ (set row).active = false ∧
        (set row).sandboxCreationStarted = row.sandboxCreationStarted ∧
          (set row).sandboxProviderId = row.sandboxProviderId)
    (hidle : ∀ row, w.allocations a = some row → which row = true →
      row.terms.kept e → w.Idle a) : Sound e (w.endWhere a which set) := by
  rw [World.endWhere]
  cases hrow : w.allocations a with
  | none => exact h
  | some row =>
    simp only
    split
    · rename_i hwhich
      obtain ⟨hterms, hactive, hstarted, hid⟩ := hset row hrow hwhich
      refine h.endAllocation hrow hterms ?_ fun _ => hidle row hrow hwhich
      exact (h.locals a row hrow).ends hterms hactive hstarted hid fun hex => absurd
        (hidle row hrow hwhich hex)
    · exact h

theorem Sound.proceedRetire {token : ClaimToken} {phase : RetirePhase}
    (hok : e → Careful w (.proceedRetire r token)) (hr : w.retires r = some ⟨a, phase⟩)
    (hrow : w.allocations a = some row) : Sound e (w.proceedRetire r a row token phase) := by
  have hlocal := h.locals a row hrow
  obtain ⟨hinactive, hretiring⟩ := hlocal.retiring r phase hr
  cases phase with
  | selected started sandbox =>
    rw [World.proceedRetire]
    split
    · exact h.retireEnds r
    · rename_i hmay
      split
      · have hset : Local e w a { row with
            maintenanceClaim := some token
            maintenanceClaimedUntil := w.now + maintenanceMs } := hlocal.maintain rfl rfl rfl rfl
              rfl
        have hsound : Sound e (w.setAllocation a { row with
            maintenanceClaim := some token
            maintenanceClaimedUntil := w.now + maintenanceMs }) := h.setAllocation hrow rfl hset
        refine hsound.retireGoesOn setAllocation_self hinactive fun hm => ?_
        obtain ⟨hstarted, hid⟩ := hretiring hm
        refine ⟨fun hnone => ?_, hid⟩
        rw [hnone, isNone_none, Bool.and_true, Bool.not_eq_true, hstarted] at hmay
        exact hmay
      · exact h.retireEnds r
  | destroying claim sandbox =>
    cases sandbox with
    | none =>
      simp only [World.proceedRetire]
      split
      · refine h.retireGoesOn hrow hinactive fun hm => ?_
        obtain ⟨hpending, hsandbox, -⟩ := hlocal.unstarted hm ((hretiring hm).1 rfl)
        exact ⟨hpending, hsandbox⟩
      · exact h.retireEnds r
    | some s =>
      simp only [World.proceedRetire]
      split
      · refine Sound.retireGoesOn (h.destroy s) hrow hinactive fun hm => ?_
        obtain ⟨hpending, -, hsandbox⟩ := hlocal.recorded hm s ((hretiring hm).2 s rfl)
        refine ⟨hpending, fun s' hs' => ?_⟩
        obtain rfl := hsandbox s' ((destroy_shrinks s a).sandbox s' hs')
        obtain ⟨b, hb, -⟩ := hs'
        exact (Table.update_none hb).1 rfl
      · exact h.retireEnds r
  | releasing claim =>
    refine Sound.retireEnds (h.gives (fun row' _ hwhich => ?_) fun row' hrow' _ hex => ?_) r
    · obtain ⟨hactive, -⟩ := Bool.and_eq_true_iff.mp hwhich
      exact ⟨rfl, by simpa using hactive, rfl, rfl⟩
    · cases hrow.symm.trans hrow'
      cases hm : row.terms.managedWorkspace with
      | true => exact idle_of (hretiring hm).1 (hretiring hm).2
      | false => exact hok hex.1 a row hrow hex.2 claim hr hm

theorem Sound.create (hok : e → Careful w (.create c a)) (hs : w.create c a = some w') : Sound e w' := by
  rw [World.create] at hs
  split at hs
  · rename_i row hnone hrow
    cases hs
    have hlocal := h.locals a row hrow
    cases hm : row.terms.managedWorkspace with
    | true =>
      refine h.begins hrow (hlocal.shrinks (createGoesOn_shrinks (fun hp => by cases hp)
        (fun _ heq => by cases heq) a)) (fun _ heq => by cases heq) hm rfl
    | false =>
      have hcareful (hex : row.terms.kept e) : row.active = true ∧ w.Idle a :=
        hok hex.1 a row hrow hex.2 rfl hm
      refine h.begins hrow (hlocal.begins (fun hg => ?_) (fun hex => (hcareful hex).1)
        (fun hmanaged => ?_) rfl) (fun _ heq => by cases heq) (fun _ hv => hv) rfl
      · rcases hg with hmanaged | hex
        · rw [hm] at hmanaged
          cases hmanaged
        · exact (hcareful hex).2
      · rw [hm] at hmanaged
        cases hmanaged
  · cases hs

section

variable (hc : w.creates c = some ⟨a, phase⟩)
include hc

theorem Sound.proceedCreate
    (hrow : w.allocations a = some row) (hs : w.proceedCreate c a row phase = some w') :
    Sound e w' := by
  obtain ⟨-, row₀, hrow₀, hfor, hex, hholds⟩ := h.creates c _ hc
  cases hrow.symm.trans hrow₀
  cases phase with
  | requested =>
    rw [World.proceedCreate] at hs
    split at hs
    · cases hs
      exact h.createGoesOn hrow hc (fun hp => by cases hp) (fun _ heq => by cases heq) hfor
        fun key hkey => by cases hkey.2
    · cases hs
      exact h.createEnds
  | claiming =>
    rw [World.proceedCreate] at hs
    split at hs
    · rename_i hclaim
      obtain ⟨hactive, hstarted⟩ := Bool.and_eq_true_iff.mp hclaim
      cases hs
      exact h.claims hrow hfor hactive (by simpa using hstarted)
    · cases hs
      exact h.createEnds
  | retiringHolders =>
    cases hs
    exact h.createGoesOn hrow hc (fun hp => hp) (fun _ heq => by cases heq) (fun _ hv => hv)
      fun key hkey => by cases hkey.2
  | holding rest volumes =>
    cases rest with
    | nil =>
      cases hs
      exact h.createGoesOn hrow hc (fun hp => hp) (fun _ heq => by cases heq) trivial
        fun key hkey => ⟨hex key hkey, hholds key hkey⟩
    | cons volume rest =>
      cases hs
      exact h.holdVolume hrow hc
  | asked volumes => cases hs
  | left volumes => cases hs
  | made s =>
    rw [World.proceedCreate] at hs
    split at hs
    · rename_i hm
      cases hs
      exact h.records hrow hm hc
    · cases hs
      exact h.createEnds

theorem Sound.make
    (hrow : w.allocations a = some row) (hs : w.make c a row phase = some w') : Sound e w' := by
  cases phase with
  | asked volumes =>
    cases hs
    refine h.makes hrow hc rfl rfl fun d call hd => ?_
    rcases Table.update_some hd with ⟨rfl, rfl⟩ | ⟨hne, hd⟩
    · exact .inl ⟨rfl, rfl⟩
    · exact .inr ⟨hne, hd⟩
  | left volumes =>
    cases hs
    exact h.makes hrow hc rfl rfl fun d call hd => .inr (Table.update_none hd)
  | requested => cases hs
  | claiming => cases hs
  | retiringHolders => cases hs
  | holding rest volumes => cases hs
  | made s => cases hs

theorem Sound.loseCreate : Sound e (w.loseCreate c a phase) := by
  obtain ⟨-, row, hrow, -, hex, hholds⟩ := h.creates c _ hc
  cases phase with
  | asked volumes | left volumes =>
    exact h.createGoesOn hrow hc (fun hp => hp) (fun _ heq => by cases heq) trivial
      fun key hkey => ⟨hex key hkey, hholds key hkey⟩
  | requested => exact h.createEnds
  | claiming => exact h.createEnds
  | retiringHolders => exact h.createEnds
  | holding rest volumes => exact h.createEnds
  | made s => exact h.createEnds

end

/-- Calls of `replaceAllocationSandbox` are no part of what there is of an allocation. -/
theorem Sound.setReplaces (replaces : CallId → Option Replace)
    (hreplaces : ∀ p call, replaces p = some call → call.sandbox < w.nextSandbox ∧
      (call.destroyed = true → w.sandboxes call.sandbox = none) ∧
        ∃ row, w.allocations call.allocation = some row ∧ row.terms.managedWorkspace = true) :
    Sound e { w with replaces } where
  locals b row hrow := (h.locals b row hrow).shrinks ⟨fun _ h => h, fun _ _ h => h, fun _ h => h,
    fun _ _ h => h, Nat.le_refl _⟩
  sandboxes := h.sandboxes
  creates := h.creates
  retires := h.retires
  replaces := hreplaces

theorem Sound.proceedReplace {p : CallId} {call : Replace}
    (hp : w.replaces p = some call) : Sound e (w.proceedReplace p call) := by
  obtain ⟨hlt, hgone, row, hrow, hm⟩ := h.replaces p call hp
  rw [World.proceedReplace]
  split
  · rename_i hdestroyed
    have hreset : Sound e (w.updateWhere call.allocation
        (fun row => row.active && row.sandboxProviderId = some call.sandbox)
        fun row => { row with sandboxProviderId := none, sandboxCreationStarted := false }) := by
      rw [World.updateWhere, hrow]
      simp only
      split
      · rename_i hwhere
        obtain ⟨hactive, hid⟩ := Bool.and_eq_true_iff.mp hwhere
        exact h.resets hrow hm hactive (of_decide_eq_true hid) (hgone hdestroyed)
      · exact h
    refine hreset.setReplaces (update w.replaces p none) fun p' call' hp' => ?_
    refine hreset.replaces p' call' ?_
    rw [World.updateWhere, hrow]
    simp only
    split <;> exact (Table.update_none hp').2
  · refine Sound.setReplaces (h.destroy call.sandbox) _ fun p' call' hp' => ?_
    rcases Table.update_some hp' with ⟨-, rfl⟩ | ⟨-, hp'⟩
    · exact ⟨hlt, fun _ => update_self .., row, hrow, hm⟩
    · exact (h.destroy call.sandbox).replaces p' call' hp'

/-- **Every step that meets the condition keeps the invariant.** -/
theorem Sound.step {action : Action} (hok : e → Careful w action)
    (hs : Volumes.step w action = some w') : Sound e w' := by
  cases action with
  | tick now =>
    rw [Volumes.step] at hs
    split at hs
    · cases hs
      exact { h with locals := fun b row hrow => (h.locals b row hrow).shrinks ⟨fun _ h => h, fun _ _ h => h,
        fun _ h => h, fun _ _ h => h, Nat.le_refl _⟩ }
    · cases hs
  | allocate a terms =>
    rw [Volumes.step] at hs
    split at hs
    · rename_i hnone
      cases hs
      exact h.allocate hnone
    · cases hs
  | release a =>
    cases hs
    exact h.release hok
  | create c a => exact h.create hok hs
  | proceedCreate c =>
    obtain ⟨⟨a, phase⟩, hc, hs⟩ := bind_eq_some_iff.mp hs
    obtain ⟨row, hrow, hs⟩ := bind_eq_some_iff.mp hs
    exact h.proceedCreate hc hrow hs
  | make c =>
    obtain ⟨⟨a, phase⟩, hc, hs⟩ := bind_eq_some_iff.mp hs
    obtain ⟨row, hrow, hs⟩ := bind_eq_some_iff.mp hs
    exact h.make hc hrow hs
  | loseCreate c =>
    obtain ⟨⟨a, phase⟩, hc, rfl⟩ := map_eq_some_iff.mp hs
    exact h.loseCreate hc
  | retire r a =>
    replace hs : w.retire r a = some w' := hs
    rw [World.retire] at hs
    split at hs
    · rename_i row hnone hrow
      split at hs
      · rename_i hwhere
        cases hs
        obtain ⟨hwhere, -⟩ := Bool.and_eq_true_iff.mp hwhere
        obtain ⟨-, hinactive⟩ := Bool.and_eq_true_iff.mp hwhere
        exact h.retireGoesOn hrow (by simpa using hinactive) fun _ => ⟨rfl, fun _ hs => hs⟩
      · cases hs
    · cases hs
  | proceedRetire r token =>
    obtain ⟨⟨a, phase⟩, hr, hs⟩ := bind_eq_some_iff.mp hs
    obtain ⟨row, hrow, rfl⟩ := map_eq_some_iff.mp hs
    exact h.proceedRetire hok hr hrow
  | setClaim a claim keep =>
    cases hs
    rw [World.setClaim, World.updateWhere]
    cases hrow : w.allocations a with
    | none => exact h
    | some row =>
      simp only
      split
      · cases keep with
        | true | false =>
          exact h.setAllocation hrow rfl ((h.locals a row hrow).maintain rfl rfl rfl rfl rfl)
      · exact h
  | stopRetire r =>
    cases hs
    exact h.retireEnds r
  | replace p a sandbox =>
    replace hs : w.replace p a sandbox = some w' := hs
    rw [World.replace] at hs
    split at hs
    · rename_i row hnone hrow
      split at hs
      · rename_i hwhere
        cases hs
        obtain ⟨hwhere, hid⟩ := Bool.and_eq_true_iff.mp hwhere
        obtain ⟨hwhere, -⟩ := Bool.and_eq_true_iff.mp hwhere
        obtain ⟨hm, -⟩ := Bool.and_eq_true_iff.mp hwhere
        refine h.setReplaces _ fun p' call hp' => ?_
        rcases Table.update_some hp' with ⟨-, rfl⟩ | ⟨-, hp'⟩
        · exact ⟨(h.locals a row hrow).fresh sandbox (of_decide_eq_true hid), fun hd =>
            (by cases hd),
            row, hrow, hm⟩
        · exact h.replaces p' call hp'
      · cases hs
    · cases hs
  | proceedReplace p =>
    obtain ⟨call, hp, rfl⟩ := map_eq_some_iff.mp hs
    exact h.proceedReplace hp
  | stopReplace p =>
    cases hs
    exact h.setReplaces _ fun p' call hp' => h.replaces p' call (Table.update_none hp').2
  | vanish sandbox =>
    cases hs
    exact h.destroy sandbox
  | confirm a =>
    cases hs
    refine h.gives (fun row _ hwhich => ?_) fun row hrow _ hex => hok hex.1 a row hrow hex.2 rfl
    obtain ⟨hwhich, -⟩ := Bool.and_eq_true_iff.mp hwhich
    obtain ⟨-, hinactive⟩ := Bool.and_eq_true_iff.mp hwhich
    exact ⟨rfl, by simpa using hinactive, rfl, rfl⟩
  | recover a =>
    cases hs
    exact h.gives (fun row _ _ => ⟨rfl, rfl, rfl, rfl⟩) fun row hrow _ hex => hok hex.1 a row hrow
      hex.2 rfl
  | sweep node =>
    cases hs
    refine h.setHolds _ fun a row hrow hex huse n key hheld => ?_
    obtain ⟨hreleased, hlive⟩ := (h.locals a row hrow).held hex huse
    have hholder : w.holderLive a = true := by
      rw [World.holderLive, hrow]
      rcases hlive with hlive | hlive <;> simp [hreleased, hlive]
    rw [hheld]
    exact filter_some_pos (by rw [hholder, Bool.or_true])

end

end Updates

theorem sound_run {now : Nat} {w : World}
    (h : Runs.Reach step (fun w action => e → Careful w action) (empty now) w) : Sound e w :=
  h.invariant (sound_empty now) fun _ _ _ hsound => hsound.step

theorem sound_reach {now : Nat} {w : World} (h : Runs.Reach step Careful (empty now) w) :
    Sound True w :=
  sound_run (h.mono fun _ _ hok _ => hok)

/-! ## Runs -/

/-- **An exclusive volume is mounted by at most one sandbox of a machine**, whenever a sandbox is
made, in every run that meets the condition. -/
theorem mountedOnce_of_careful {now : Nat} {w : World}
    (h : Runs.Reach step Careful (empty now) w) : w.MountedOnce :=
  (sound_reach h).mountedOnce

def dockerRoot : Volume where
  key := 0
  exclusive := true

/-- A workspace on a managed machine. -/
def onMachine : Terms where
  workerNodeId := some 0
  bindingId := .other 0
  managed := true
  volumes := [dockerRoot]

/-- A workspace on a member's computer. -/
def onComputer : Terms where
  workerNodeId := none
  bindingId := .client 0
  managed := false
  volumes := [dockerRoot]

/-- What needs nothing of the condition: managed creations, and releases on worker nodes. -/
def Managed (w : World) : Action → Bool
  | .create _ a => (w.allocations a).all (·.terms.managedWorkspace)
  | .release a => (w.allocations a).all (·.terms.workerNodeId.isSome)
  | .allocate _ _ | .proceedCreate _ | .make _ => true
  | _ => false

theorem Managed.careful {w : World} {action : Action} (h : Managed w action = true) :
    Careful w action := by
  intro a row hrow _
  cases action with
  | create c b =>
    intro hb hm
    subst hb
    rw [Managed, hrow, all_some, hm] at h
    cases h
  | release b =>
    intro hb hnode
    subst hb
    rw [Managed, hrow, all_some, hnode] at h
    cases h
  | confirm b => cases h
  | recover b => cases h
  | proceedRetire r token => cases h
  | tick now => trivial
  | allocate b terms => trivial
  | proceedCreate c => trivial
  | make c => trivial
  | loseCreate c => trivial
  | retire r b => trivial
  | setClaim b claim keep => trivial
  | stopRetire r => trivial
  | replace p b sandbox => trivial
  | proceedReplace p => trivial
  | stopReplace p => trivial
  | vanish sandbox => trivial
  | sweep node => trivial

/-- The first workspace is released while its sandbox is on its way; the second one starts. -/
def lateOnMachine : List Action :=
  [.allocate 0 onMachine, .create 0 0, .proceedCreate 0, .proceedCreate 0, .proceedCreate 0,
    .proceedCreate 0, .proceedCreate 0, .release 0, .allocate 1 onMachine, .create 1 1,
    .proceedCreate 1, .proceedCreate 1, .proceedCreate 1, .proceedCreate 1, .proceedCreate 1,
    .make 1, .make 0]

/-- What two sandboxes mount. -/
def World.shows (w : World) : Option Bool × Option Bool :=
  ((w.sandboxes 0).map fun b => mounts b.volumes 0, (w.sandboxes 1).map fun b => mounts b.volumes 0)

theorem mountedOnce_of_careful_late : ∃ w,
    Runs.Reach step Careful (empty 0) w ∧ w.shows = (some false, some true) ∧ w.MountedOnce := by
  have hrun : (Runs.execOk step (fun w action => Managed w action = true) (empty 0)
      lateOnMachine).map World.shows = some (some false, some true) := by
    decide +kernel
  obtain ⟨w, hw, hshows⟩ := map_eq_some_iff.mp hrun
  have hreach : Runs.Reach step Careful (empty 0) w :=
    (Runs.reach_of_execOk hw).mono fun _ _ => Managed.careful
  exact ⟨w, hreach, hshows, mountedOnce_of_careful hreach⟩

/-- **A managed workspace has one sandbox**, or one call that may still have it made, whatever
happens. -/
theorem one_sandbox {now : Nat} {w : World} (h : Runs.Reach step Runs.anyEvent (empty now) w) :
    ∀ a row, w.allocations a = some row → row.terms.managedWorkspace = true →
      (∀ s₁ s₂, w.SandboxOf a s₁ → w.SandboxOf a s₂ → s₁ = s₂) ∧
      (∀ c s, w.PendingOf a c → ¬w.SandboxOf a s) ∧
      ∀ c₁ c₂, w.PendingOf a c₁ → w.PendingOf a c₂ → c₁ = c₂ := by
  intro a row hrow hm
  have hlocal := (sound_run (e := False) (h.mono fun _ _ _ => False.elim)).locals a row hrow
  exact ⟨hlocal.alone (.inl hm), hlocal.either (.inl hm), hlocal.single (.inl hm)⟩

theorem one_sandbox_late : ∃ w : World, w.shows = (some false, some true) ∧
    ∀ a row, w.allocations a = some row → row.terms.managedWorkspace = true →
      ∀ s₁ s₂, w.SandboxOf a s₁ → w.SandboxOf a s₂ → s₁ = s₂ := by
  have hrun : (Runs.exec step (empty 0) lateOnMachine).map World.shows =
      some (some false, some true) := by
    decide +kernel
  obtain ⟨w, hw, hshows⟩ := map_eq_some_iff.mp hrun
  exact ⟨w, hshows, fun a row hrow hm => (one_sandbox (Runs.reach_of_exec hw) a row hrow hm).1⟩

/-- The same on a member's computer: the release ends the hold, and the second workspace takes
the volume before the first one's sandbox is made. -/
def lateOnComputer : List Action :=
  [.allocate 0 onComputer, .create 0 0, .proceedCreate 0, .proceedCreate 0, .release 0,
    .allocate 1 onComputer, .create 1 1, .proceedCreate 1, .proceedCreate 1, .make 1, .make 0]

theorem mountedTwice : ¬∀ w, Runs.Reach step Runs.anyEvent (empty 0) w → w.MountedOnce := by
  intro hclaim
  have hrun : (Runs.exec step (empty 0) lateOnComputer).map
      (fun w => (w.sandboxes 0, w.sandboxes 1)) =
      some (some ⟨1, .client 0, [⟨0, true, false⟩]⟩, some ⟨0, .client 0, [⟨0, true, false⟩]⟩) := by
    decide +kernel
  obtain ⟨w, hw, hshows⟩ := map_eq_some_iff.mp hrun
  obtain ⟨h₀, h₁⟩ := Prod.mk.inj hshows
  have hsame := hclaim w (Runs.reach_of_exec hw) 0 1 _ _ 0 h₀ h₁ rfl rfl rfl
  cases hsame

end Catamorphic.Workers.Volumes
