import Catamorphic.Sessions.SecretMask

/-!
# A streamed field is masked as if it had come whole

A harness cuts its text wherever it likes, so a secret value may arrive in any number
of deltas. Each delta is searched together with what the last one left held, and cut
where `holdFrom` says. That cut is one nobody notices (`Munch.parts_hold`), so the
search over the deltas is the search over the whole text, and what a stretch between
two marks shows never contains a form of a value.
-/

namespace Catamorphic.Sessions.SecretMask

open Munch List Option Text

/-- The deltas of one field, one after the other: what each records, and what is held behind. -/
def streamAll (m : SecretMask) (key : StreamKey) : Held → List Text → List Text × Held
  | held, [] => ([], held)
  | held, c :: cs =>
    let first := m.stream held key c
    let later := streamAll m key first.2 cs
    (first.1 :: later.1, later.2)

/-- What the same calls of `SecretMask.text` found in what they recorded. -/
def recordedParts (m : SecretMask) (key : StreamKey) : Held → List Text → List (Munch.Part UInt16)
  | _, [] => []
  | held, c :: cs =>
    let combined := held.get key ++ c
    m.parts (combined.take (m.holdFrom combined)) ++
      recordedParts m key (m.stream held key c).2 cs

/-! ## Every form of every value is registered -/

theorem register_labels (m : SecretMask) (label form : Text) :
    ∃ extra, (m.register label form).labels = m.labels ++ extra := by
  unfold register
  split
  · exact ⟨[(form, label)], rfl⟩
  · exact ⟨[], by simp⟩

variable {m : SecretMask} {label form : Text}

theorem register_mem (hlen : secretMaskMinLength ≤ form.length) :
    form ∈ (m.register label form).values := by
  rw [mem_values]
  by_cases hl : m.labels.lookup form = none
  · refine ⟨label, ?_⟩
    simp [register, hlen, hl]
  · obtain ⟨other, ho⟩ := ne_none_iff_exists'.mp hl
    refine ⟨other, ?_⟩
    have hmem : (form, other) ∈ m.labels := by
      obtain ⟨l₁, l₂, hsplit, _⟩ := lookup_eq_some_iff.mp ho
      rw [hsplit]
      simp
    obtain ⟨extra, hextra⟩ := register_labels m label form
    rw [hextra]
    exact mem_append_left _ hmem

theorem register_values_mono {w : Text} (hw : w ∈ m.values) :
    w ∈ (m.register label form).values := by
  rw [mem_values] at hw ⊢
  obtain ⟨l, hl⟩ := hw
  obtain ⟨extra, hextra⟩ := register_labels m label form
  exact ⟨l, by rw [hextra]; exact mem_append_left _ hl⟩

theorem foldl_register_values_mono {w : Text} :
    ∀ (forms : List Text) (m : SecretMask), w ∈ m.values →
      w ∈ (forms.foldl (fun m form => m.register label form) m).values := by
  intro forms
  induction forms with
  | nil => intro m hw; exact hw
  | cons form forms ih => intro m hw; exact ih _ (register_values_mono hw)

theorem foldl_register_mem (hlen : secretMaskMinLength ≤ form.length) :
    ∀ (forms : List Text) (m : SecretMask), form ∈ forms →
      form ∈ (forms.foldl (fun m form => m.register label form) m).values := by
  intro forms
  induction forms with
  | nil => intro m h; simp at h
  | cons f forms ih =>
    intro m h
    rcases mem_cons.mp h with rfl | h
    · exact foldl_register_values_mono forms _ (register_mem hlen)
    · exact ih _ h

/-- A secret's values, registered one after the other. -/
def registerValues (name : Text) (m : SecretMask) (vs : List Text) : Option SecretMask :=
  vs.foldlM (fun m value => do
    let forms ← secretForms value
    some (forms.foldl (fun m form => m.register (labelOf name) form) m)) m

theorem registerValues_spec {name : Text} :
    ∀ (vs : List Text) (m m' : SecretMask), registerValues name m vs = some m' →
      (∀ w ∈ m.values, w ∈ m'.values) ∧
      ∀ v ∈ vs, ∃ forms, secretForms v = some forms ∧
        ∀ f ∈ forms, secretMaskMinLength ≤ f.length → f ∈ m'.values := by
  intro vs
  induction vs with
  | nil =>
    intro m m' h
    simp only [registerValues, foldlM_nil, Option.pure_def, some.injEq] at h
    subst h
    exact ⟨fun w hw => hw, fun v hv => absurd hv (by simp)⟩
  | cons v vs ih =>
    intro m m' h
    simp only [registerValues, foldlM_cons, bind_eq_bind, bind_eq_some_iff] at h
    obtain ⟨m₁, ⟨forms, hforms, hm₁⟩, hrest⟩ := h
    obtain ⟨hmono, hlater⟩ := ih m₁ m' hrest
    have hm₁' := some.inj hm₁
    refine ⟨fun w hw => hmono w ?_, ?_⟩
    · rw [← hm₁']
      exact foldl_register_values_mono forms m hw
    · intro u hu
      rcases mem_cons.mp hu with rfl | hu
      · refine ⟨forms, hforms, fun f hf hlen => hmono f ?_⟩
        rw [← hm₁']
        exact foldl_register_mem hlen forms m hf
      · exact hlater u hu

/-- **The constructor registers every form of every value that is long enough.** -/
theorem new_registers {values : List (Text × List Text)} (h : new values = some m) :
    ∀ entry ∈ values, ∀ v ∈ entry.2, ∃ forms, secretForms v = some forms ∧
      ∀ f ∈ forms, secretMaskMinLength ≤ f.length → f ∈ m.values := by
  have key : ∀ (values : List (Text × List Text)) (m m' : SecretMask),
      values.foldlM (fun m entry => registerValues entry.1 m entry.2) m = some m' →
      (∀ w ∈ m.values, w ∈ m'.values) ∧
      ∀ entry ∈ values, ∀ v ∈ entry.2, ∃ forms, secretForms v = some forms ∧
        ∀ f ∈ forms, secretMaskMinLength ≤ f.length → f ∈ m'.values := by
    intro values
    induction values with
    | nil =>
      intro m m' h
      simp only [foldlM_nil, Option.pure_def, some.injEq] at h
      subst h
      exact ⟨fun w hw => hw, fun e he => absurd he (by simp)⟩
    | cons e values ih =>
      intro m m' h
      simp only [foldlM_cons, bind_eq_bind, bind_eq_some_iff] at h
      obtain ⟨m₁, hm₁, hrest⟩ := h
      obtain ⟨hmono₁, hreg₁⟩ := registerValues_spec e.2 m m₁ hm₁
      obtain ⟨hmono, hreg⟩ := ih m₁ m' hrest
      refine ⟨fun w hw => hmono w (hmono₁ w hw), ?_⟩
      intro entry hentry v hv
      rcases mem_cons.mp hentry with rfl | hentry
      · obtain ⟨forms, hforms, hall⟩ := hreg₁ v hv
        exact ⟨forms, hforms, fun f hf hlen => hmono f (hall f hf hlen)⟩
      · exact hreg entry hentry v hv
  exact (key values _ m h).2

/-! ## One delta -/

theorem holdFrom_le (m : SecretMask) (t : Text) : m.holdFrom t ≤ t.length := by
  unfold holdFrom
  split
  · exact Nat.le_refl _
  · exact (hold_cut t values_length_le).1

variable {held : Held} {key : StreamKey} {c : Text}

/-- The text after a delta is the text before it, cut at `holdFrom`. -/
theorem stream_get (h : m.values.isEmpty = true → held.get key = []) :
    (m.stream held key c).2.get key = (held.get key ++ c).drop (m.holdFrom (held.get key ++ c)) ∧
      (m.stream held key c).1 =
        m.text ((held.get key ++ c).take (m.holdFrom (held.get key ++ c))) := by
  by_cases hv : m.values.isEmpty = true
  · simp [stream, holdFrom, hv, h hv, text]
  · have hle := holdFrom_le m (held.get key ++ c)
    simp only [stream, hv, Bool.false_eq_true, if_false, and_true]
    split
    · simp
    · rename_i hge
      rw [Held.get_delete_self, drop_eq_nil_of_le (by omega)]

/-- **One delta splits the search: what it records, then what it holds with what follows.** -/
theorem parts_stream (h : m.values.isEmpty = true → held.get key = []) (t : Text) :
    m.parts (held.get key ++ (c ++ t)) =
      m.parts ((held.get key ++ c).take (m.holdFrom (held.get key ++ c))) ++
        m.parts ((m.stream held key c).2.get key ++ t) := by
  rw [(stream_get h).1]
  by_cases hv : m.values.isEmpty = true
  · have hnil : m.values = [] := List.isEmpty_iff.mp hv
    have happ : ∀ s s' : Text, m.parts (s ++ s') = m.parts s ++ m.parts s' := by
      intro s s'
      have hopen : ∀ i, i < s.length → ¬ Open m.values (s.drop i) := by
        intro i _ h
        obtain ⟨w, hw, _⟩ := h
        rw [hnil] at hw
        cases hw
      have hcut := parts_append_of_cut s' (Nat.le_refl s.length) hopen
        (fun p hp _ => hits_whole_end s 0 p hp)
      rw [take_length, drop_length, nil_append] at hcut
      exact hcut
    rw [holdFrom, if_pos hv, take_length, drop_length, ← append_assoc, happ]
    rfl
  · have hcut := parts_hold (held.get key ++ c) t (values_length_le (m := m))
    simp only [holdFrom, hv]
    rw [← append_assoc]
    exact hcut

/-! ## All deltas of a field -/

/-- Nothing is ever held under a mask without forms. -/
theorem stream_empty (h : m.values.isEmpty = true → held.get key = []) :
    m.values.isEmpty = true → (m.stream held key c).2.get key = [] := by
  intro hv
  simp [stream, hv, h hv]

/-- **The search over the deltas is the search over the whole text.** -/
theorem parts_streamAll :
    ∀ (chunks : List Text) (held : Held), (m.values.isEmpty = true → held.get key = []) →
      m.parts (held.get key ++ chunks.flatten) =
        recordedParts m key held chunks ++ m.parts ((streamAll m key held chunks).2.get key) := by
  intro chunks
  induction chunks with
  | nil => intro held _; simp [recordedParts, streamAll]
  | cons c cs ih =>
    intro held h
    rw [flatten_cons, parts_stream h cs.flatten, ih _ (stream_empty h)]
    simp [recordedParts, streamAll]

/-- What the deltas record is what those parts are written as. -/
theorem streamAll_write :
    ∀ (chunks : List Text) (held : Held), (m.values.isEmpty = true → held.get key = []) →
      (streamAll m key held chunks).1.flatten = (recordedParts m key held chunks).flatMap
        m.write := by
  intro chunks
  induction chunks with
  | nil => intro held _; rfl
  | cons c cs ih =>
    intro held h
    simp only [streamAll, recordedParts, flatten_cons, flatMap_append]
    rw [(stream_get h).2, text_eq, ih _ (stream_empty h)]

variable {other : StreamKey}

theorem lookup_delete (hne : other ≠ key) : (held.delete key).lookup other = held.lookup other := by
  induction held with
  | nil => rfl
  | cons entry held ih =>
    obtain ⟨first, text⟩ := entry
    rw [Held.delete] at ih ⊢
    by_cases hkey : first = key
    · subst hkey
      rw [filter_cons_of_neg (by simp), ih, lookup_cons, beq_false_of_ne hne]
    · rw [filter_cons_of_pos (by simpa using hkey), lookup_cons, lookup_cons, ih]

theorem lookup_set (hne : other ≠ key) (text : Text) :
    (held.set key text).lookup other = held.lookup other := by
  unfold Held.set
  split
  · clear * - hne
    induction held with
    | nil => rfl
    | cons entry held ih =>
      obtain ⟨first, text⟩ := entry
      by_cases hkey : first = key
      · subst hkey
        rw [map_cons, if_pos rfl, lookup_cons, lookup_cons, beq_false_of_ne hne, ih]
      · rw [map_cons, if_neg hkey, lookup_cons, lookup_cons, ih]
  · simp [lookup_append, lookup_cons, beq_false_of_ne hne]

/-- A delta of a field leaves the others. -/
theorem stream_get_of_ne (hne : other ≠ key) :
    (m.stream held key c).2.get other = held.get other := by
  unfold stream
  split
  · rfl
  · dsimp only
    split
    · rw [Held.get, lookup_set hne, Held.get]
    · rw [Held.get, lookup_delete hne, Held.get]

/-- The deltas of any fields as they come, each with what it records. -/
def streamFields (m : SecretMask) : Held → List (StreamKey × Text) → List (StreamKey × Text) × Held
  | held, [] => ([], held)
  | held, (key, c) :: deltas =>
    let first := m.stream held key c
    let later := streamFields m first.2 deltas
    ((key, first.1) :: later.1, later.2)

/-- What is of one field. -/
def ofField (key : StreamKey) (deltas : List (StreamKey × Text)) : Text :=
  (deltas.filter (·.1 = key)).flatMap Prod.snd

/-- **Fields do not mix**: however the deltas of any number of fields take turns, what is recorded
of a field and what it still holds are its whole text masked. -/
theorem fields_apart (m : SecretMask) (deltas : List (StreamKey × Text)) (key : StreamKey) :
    ofField key (m.streamFields [] deltas).1 ++ (m.flush (m.streamFields [] deltas).2 key).1 =
      m.text (ofField key deltas) := by
  have hall : ∀ held : Held, (∀ key, m.values.isEmpty = true → held.get key = []) →
      ofField key (m.streamFields held deltas).1 ++
          m.text ((m.streamFields held deltas).2.get key) =
        m.text (held.get key ++ ofField key deltas) := by
    induction deltas with
    | nil => intro held _; simp [streamFields, ofField]
    | cons delta deltas ih =>
      obtain ⟨other, c⟩ := delta
      intro held h
      have hrest := ih (m.stream held other c).2 fun field hv => by
        by_cases hfield : field = other
        · subst hfield
          exact stream_empty (h field) hv
        · rw [stream_get_of_ne hfield, h field hv]
      by_cases hkey : other = key
      · subst hkey
        simp only [streamFields, ofField, filter_cons, decide_true, if_true, flatMap_cons,
          append_assoc] at hrest ⊢
        rw [hrest, (stream_get (h other)).2, text_eq, text_eq, text_eq m (_ ++ (c ++ _)),
          parts_stream (h other), flatMap_append]
      · rw [stream_get_of_ne (Ne.symm hkey)] at hrest
        simpa [streamFields, ofField, filter_cons, hkey] using hrest
  exact hall [] fun _ _ => rfl

end Catamorphic.Sessions.SecretMask
