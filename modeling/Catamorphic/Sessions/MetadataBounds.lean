import Catamorphic.Sessions.Metadata

/-!
# A session's metadata stay within their bounds

What a write leaves behind is what it found, but for the entries that it set, and those were
checked. The metadata after any writes pass as what one copy of a session takes from another.
-/

namespace Catamorphic.Sessions.Metadata

open Maps List

/-! ## A value that was checked passes again -/

theorem checkEntries_eq (key : Text) (depth : Nat) (entries : List Given) :
    checkEntries key depth entries = entries.mapM (checkValue key depth) := by
  induction entries with
  | nil => rfl
  | cons entry entries ih =>
    rw [checkEntries, ih, mapM_cons]

/-- A field of an object that is checked. -/
def checkField (key : Text) (depth : Nat) (field : Text × Given) :
    Except SessionMetadataError (Text × JsonValue) :=
  (checkValue key depth field.2).map fun value => (field.1, value)

theorem checkFields_eq (key : Text) (depth : Nat) (fields : List (Text × Given)) :
    checkFields key depth fields = fields.mapM (checkField key depth) := by
  induction fields with
  | nil => rfl
  | cons field fields ih =>
    rw [checkFields, ih, mapM_cons, checkField]
    cases checkValue key depth field.2 <;> rfl

variable {key : Text} {given : Given} {value : JsonValue} {other : Text}

/-- **What a value is as JSON passes wherever the value does.** -/
theorem checkValue_of {depth : Nat} (h : checkValue key depth given = .ok value) :
    checkValue other depth (.of value) = .ok value := by
  induction given generalizing depth value with
  | null | bool | number | string =>
    obtain rfl := Except.ok.inj h
    rfl
  | nonFinite | other => cases h
  | array entries ih =>
    rw [checkValue] at h
    split at h
    · cases h
    · next hdepth =>
      rw [checkEntries_eq] at h
      obtain ⟨values, hvalues, rfl⟩ := map_ok h
      rw [Given.of, Given.ofEntries_eq, checkValue, if_neg hdepth, checkEntries_eq,
        mapM_again hvalues fun entry hentry value => ih entry hentry]
      rfl
  | object plain fields ih =>
    rw [checkValue] at h
    split at h
    · cases h
    · next hdepth =>
      split at h
      · rw [checkFields_eq] at h
        obtain ⟨values, hvalues, rfl⟩ := map_ok h
        have hagain : (values.map Given.ofField).mapM (checkField other (depth + 1)) =
            .ok values := by
          refine mapM_again hvalues fun field hfield result hresult => ?_
          obtain ⟨value, hvalue, rfl⟩ := map_ok hresult
          rw [Given.ofField, checkField, ih field hfield hvalue]
          rfl
        rw [Given.of, Given.ofFields_eq, checkValue, if_neg hdepth, if_pos rfl, checkFields_eq,
          hagain]
        rfl
      · cases h

theorem checkEntry_ok : checkEntry key given = .ok value ↔ checkValue key 0 given = .ok value ∧
      jsonBytes value ≤ SESSION_METADATA_LIMITS.valueBytes := by
  unfold checkEntry
  constructor
  · intro h
    obtain ⟨found, hfound, h⟩ := bind_ok h
    split at h
    · cases h
    · next hbytes =>
      obtain rfl := Except.ok.inj h
      exact ⟨hfound, Nat.le_of_not_lt hbytes⟩
  · rintro ⟨hfound, hbytes⟩
    rw [hfound]
    exact if_neg (Nat.not_lt.mpr hbytes)

theorem isNull_of (hnull : given.isNull = false) (h : checkValue key 0 given = .ok value) :
    (Given.of value).isNull = false := by
  cases given with
  | null => cases hnull
  | bool | number | string =>
    obtain rfl := Except.ok.inj h
    rfl
  | nonFinite | other => cases h
  | array entries =>
    obtain ⟨values, -, rfl⟩ := map_ok h
    rfl
  | object plain fields =>
    rw [checkValue, if_neg (by decide)] at h
    split at h
    · obtain ⟨values, -, rfl⟩ := map_ok h
      rfl
    · cases h

/-- An entry that a write may leave behind: it passes as one of the metadata. -/
theorem assertEntry_of (hkey : checkKey key = .ok ()) (hnull : given.isNull = false)
    (h : checkEntry key given = .ok value) :
    assertEntry (Given.ofField (key, value)) = .ok (key, value) := by
  obtain ⟨hvalue, hbytes⟩ := checkEntry_ok.mp h
  have hagain : checkValue key 0 (.of value) = .ok value := checkValue_of hvalue
  have hentry := checkEntry_ok.mpr ⟨hagain, hbytes⟩
  simp only [assertEntry, Given.ofField, hkey, isNull_of hnull hvalue, hentry]
  rfl

/-! ## The bounds -/

/-- Every entry passes: what a turn of the loop over a write's entries keeps. -/
structure Sound (metadata : SessionMetadata) : Prop where
  distinct : Distinct metadata
  entries : ∀ entry ∈ metadata, assertEntry (Given.ofField entry) = .ok entry

/-- Metadata within their bounds. -/
structure Bounded (metadata : SessionMetadata) : Prop extends Sound metadata where
  keys : metadata.length ≤ SESSION_METADATA_LIMITS.keys
  bytes : jsonBytes (.object metadata) ≤ SESSION_METADATA_LIMITS.totalBytes

theorem bounded_nil : Bounded [] where
  distinct := .nil
  entries := nofun
  keys := Nat.zero_le _
  bytes := by decide

variable {metadata : SessionMetadata}

/-- **Metadata within their bounds pass.** -/
theorem Bounded.passes (h : Bounded metadata) :
    assertSessionMetadata (.of (.object metadata)) = .ok metadata := by
  rw [Given.of, Given.ofFields_eq, assertSessionMetadata, mapM_back h.entries]
  show (if _ then _ else _) = _
  rw [if_neg (Nat.not_lt.mpr h.keys), if_neg (Nat.not_lt.mpr h.bytes)]

/-! ## One write -/

/-- The metadata say of a key what a write's entry says. -/
def Says (metadata : SessionMetadata) (entry : Text × Given) : Prop :=
  if entry.2.isNull then valueAt metadata entry.1 = none
  else ∃ before value, valueAt metadata entry.1 = some before ∧
    checkEntry entry.1 entry.2 = .ok value ∧ sameJson before value = true

theorem valueAt_removeAt : valueAt (removeAt metadata key) other =
      if key = other then none else valueAt metadata other := by
  induction metadata with
  | nil => simp [removeAt, valueAt]
  | cons first metadata ih =>
    by_cases hfirst : first.1 = key
    · rw [removeAt, filter_cons_of_neg (by simpa using hfirst), ← removeAt, ih, valueAt_cons,
        hfirst]
      split <;> rfl
    · rw [removeAt, filter_cons_of_pos (by simpa using hfirst), ← removeAt, valueAt_cons,
        valueAt_cons, ih]
      split_ifs <;> simp_all

variable {state out : SessionMetadata × Bool} {entry : Text × Given} {current : SessionMetadata}

/-- **What one turn of the loop does**: the entry is said already, or is from then on. -/
theorem writeEntry_ok (h : writeEntry state entry = .ok out) : checkKey entry.1 = .ok () ∧
      ((out = state ∧ Says state.1 entry) ∨
      (out = (removeAt state.1 entry.1, true) ∧ entry.2.isNull = true ∧ ¬ Says state.1 entry) ∨
      ∃ value, checkEntry entry.1 entry.2 = .ok value ∧ entry.2.isNull = false ∧
        ¬ Says state.1 entry ∧ out = (setAt state.1 entry.1 value, true)) := by
  obtain ⟨⟨⟩, hkey, h⟩ := bind_ok h
  refine ⟨hkey, ?_⟩
  unfold Says
  split at h
  · next hnull =>
    rw [if_pos hnull]
    split at h
    · next hsome =>
      refine .inr (.inl ⟨(Except.ok.inj h).symm, hnull, fun hnone => ?_⟩)
      rw [hnone] at hsome
      cases hsome
    · next hnone =>
      exact .inl ⟨(Except.ok.inj h).symm, Option.not_isSome_iff_eq_none.mp hnone⟩
  · next hnull =>
    rw [if_neg hnull]
    obtain ⟨value, hvalue, h⟩ := bind_ok h
    split at h
    · next hany =>
      obtain ⟨before, hbefore, hsame⟩ := (Option.any_eq_true ..).mp hany
      exact .inl ⟨(Except.ok.inj h).symm, before, value, hbefore, hvalue, hsame⟩
    · next hany =>
      refine .inr (.inr ⟨value, hvalue, Bool.eq_false_iff.mpr hnull, ?_, (Except.ok.inj h).symm⟩)
      rintro ⟨before, other, hbefore, hother, hsame⟩
      obtain rfl := Except.ok.inj (hvalue.symm.trans hother)
      rw [hbefore] at hany
      exact hany hsame

theorem mem_setAt {entry : Text × JsonValue} (h : entry ∈ setAt metadata key value) :
    entry ∈ metadata ∨ entry = (key, value) := by
  unfold setAt at h
  split at h
  · obtain ⟨old, hold, rfl⟩ := mem_map.mp h
    split
    · exact .inr rfl
    · exact .inl hold
  · exact (mem_append.mp h).imp_right mem_singleton.mp

theorem Sound.writeEntry (hsound : Sound state.1) (h : writeEntry state entry = .ok out) :
    Sound out.1 := by
  obtain ⟨hkey, ⟨rfl, -⟩ | ⟨rfl, -, -⟩ | ⟨value, hvalue, hnull, -, rfl⟩⟩ := writeEntry_ok h
  · exact hsound
  · exact ⟨hsound.distinct.filter _, fun other hother =>
      hsound.entries other (mem_filter.mp hother).1⟩
  · refine ⟨distinct_setAt hsound.distinct, fun other hother => ?_⟩
    rcases mem_setAt hother with hold | rfl
    · exact hsound.entries other hold
    · exact assertEntry_of hkey hnull hvalue

/-- The value of another key is as it was. -/
theorem writeEntry_frame (h : writeEntry state entry = .ok out) (hne : entry.1 ≠ key) :
    valueAt out.1 key = valueAt state.1 key := by
  obtain ⟨-, ⟨rfl, -⟩ | ⟨rfl, -, -⟩ | ⟨value, -, -, -, rfl⟩⟩ := writeEntry_ok h
  · rfl
  · rw [valueAt_removeAt, if_neg hne]
  · rw [valueAt_setAt, if_neg hne]

theorem says_congr {other : SessionMetadata} (h : valueAt metadata entry.1 = valueAt other entry.1)
    : Says metadata entry ↔ Says other entry := by
  unfold Says
  rw [h]

/-- **What a write's loop does**: it keeps the metadata sound, changes them exactly where the
write says what they do not, and says so. -/
theorem writeEntries_ok {values : List (Text × Given)} : ∀ {state out : SessionMetadata × Bool},
    Distinct values → Sound state.1 → values.foldlM writeEntry state = .ok out →
      Sound out.1 ∧ (out.2 = true ↔ state.2 = true ∨ ∃ entry ∈ values, ¬ Says state.1 entry) := by
  induction values with
  | nil =>
    intro state out _ hsound h
    obtain rfl := Except.ok.inj h
    exact ⟨hsound, by simp⟩
  | cons entry values ih =>
    intro state out hdistinct hsound h
    obtain ⟨mid, hmid, h⟩ := bind_ok h
    obtain ⟨hfirst, hrest⟩ := pairwise_cons.mp hdistinct
    obtain ⟨hout, hchanged⟩ := ih hrest (hsound.writeEntry hmid) h
    refine ⟨hout, ?_⟩
    have hsays : (∃ other ∈ values, ¬ Says mid.1 other) ↔ ∃ other ∈ values, ¬ Says state.1
      other :=
      exists_congr fun other => and_congr_right fun hother =>
        not_congr (says_congr (writeEntry_frame hmid (hfirst other hother)))
    have hmid₂ : mid.2 = true ↔ state.2 = true ∨ ¬ Says state.1 entry := by
      obtain ⟨-, ⟨rfl, hsaid⟩ | ⟨rfl, -, hnot⟩ | ⟨value, -, -, hnot, rfl⟩⟩ := writeEntry_ok hmid
      · exact ⟨.inl, fun h => h.resolve_right fun hnot => hnot hsaid⟩
      · exact ⟨fun _ => .inr hnot, fun _ => rfl⟩
      · exact ⟨fun _ => .inr hnot, fun _ => rfl⟩
    rw [hchanged, hsays, hmid₂, exists_mem_cons_iff, or_assoc]

/-- A write changes nothing: the metadata say already what it says. -/
def Unchanged (current : SessionMetadata) (write : Write) : Prop :=
  ∀ entry ∈ write.values, Says current entry

theorem withSessionMetadata_ok {write : Write} {out : Written}
    (hbounded : Bounded current) (h : withSessionMetadata current write = .ok out) :
    (out = .current ∧ Unchanged current write) ∨
      ∃ next, out = .next next ∧ Bounded next ∧ ¬ Unchanged current write := by
  unfold withSessionMetadata at h
  split at h
  · cases h
  · split at h
    · cases h
    · obtain ⟨⟨next, changed⟩, hnext, h⟩ := bind_ok h
      obtain ⟨hsound, hchanged⟩ := writeEntries_ok write.distinct hbounded.toSound hnext
      have hunchanged : Unchanged current write ↔ changed = false := by
        have := not_congr hchanged
        simpa [Unchanged] using this.symm
      dsimp only at h
      split at h
      · next hfalse =>
        refine .inl ⟨(Except.ok.inj h).symm, hunchanged.mpr ?_⟩
        simpa using hfalse
      · next htrue =>
        split at h
        · cases h
        · next hkeys =>
          split at h
          · cases h
          · next hbytes =>
            refine .inr ⟨next, (Except.ok.inj h).symm, ⟨hsound, ?_, ?_⟩, ?_⟩
            · have := hbounded.keys
              simp only [Bool.and_eq_true, decide_eq_true_eq] at hkeys
              omega
            · have := hbounded.bytes
              simp only [Bool.and_eq_true, decide_eq_true_eq] at hbytes
              omega
            · rw [hunchanged]
              simpa using htrue

theorem Bounded.after (h : Bounded current) (write : Write) : Bounded (after current write) := by
  unfold Metadata.after
  split
  · next next hok =>
    obtain ⟨hcurrent, -⟩ | ⟨other, hnext, hbounded, -⟩ := withSessionMetadata_ok h hok
    · cases hcurrent
    · obtain rfl := Written.next.inj hnext
      exact hbounded
  · exact h
  · exact h

theorem Bounded.afterAll (h : Bounded current) (writes : List Write) :
    Bounded (writes.foldl Metadata.after current) := by
  induction writes generalizing current with
  | nil => exact h
  | cons write writes ih => exact ih (h.after write)

/--
**A session's metadata stay within their bounds**: whatever was written, the value is one that
`assertSessionMetadata` passes as it is; a write that is refused leaves it alone; and of those that
are not, exactly the ones that change nothing return the value itself.
-/
theorem metadata_bounded (writes : List Write) :
    assertSessionMetadata (.of (.object (afterAll writes))) = .ok (afterAll writes) ∧
    ∀ write, (∀ failure, withSessionMetadata (afterAll writes) write = .error failure →
        afterAll (writes ++ [write]) = afterAll writes) ∧
      ∀ out, withSessionMetadata (afterAll writes) write = .ok out →
        (out = .current ↔ Unchanged (afterAll writes) write) := by
  have hbounded : Bounded (afterAll writes) := bounded_nil.afterAll writes
  refine ⟨hbounded.passes, fun write => ⟨fun failure h => ?_, fun out h => ?_⟩⟩
  · rw [afterAll, foldl_append, ← afterAll]
    show after (afterAll writes) write = afterAll writes
    rw [after, h]
  · obtain ⟨rfl, hsaid⟩ | ⟨next, rfl, -, hnot⟩ := withSessionMetadata_ok hbounded h
    · exact ⟨fun _ => hsaid, fun _ => rfl⟩
    · exact ⟨nofun, fun hsaid => absurd hsaid hnot⟩

def noteWrite : Write := ⟨[(Text.ofString "note", .bool true)], pairwise_singleton _ _⟩

def emptyWrite : Write := ⟨[], .nil⟩

/-- A write twice, then one that is refused. -/
theorem metadata_bounded_note :
    assertSessionMetadata (.of (.object (afterAll [noteWrite]))) = .ok (afterAll [noteWrite]) ∧
      Unchanged (afterAll [noteWrite]) noteWrite ∧
      afterAll ([noteWrite] ++ [emptyWrite]) = afterAll [noteWrite] := by
  obtain ⟨hpasses, hwrites⟩ := metadata_bounded [noteWrite]
  refine ⟨hpasses, ((hwrites noteWrite).2 .current rfl).mp rfl, ?_⟩
  exact (hwrites emptyWrite).1 ⟨Text.ofString "Name at least one key to set or remove."⟩ rfl

end Catamorphic.Sessions.Metadata
