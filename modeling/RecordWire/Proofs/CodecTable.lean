import RecordWire.Codec
import RecordWire.Proofs.PlanSteps
import RecordWire.Proofs.Resolution

/-!
The table of codecs of a sound schema.  Records are built in dependency order, so a property that
passes from the elements of a record to the record itself holds of every codec in the table.  In
the whole table each record has the codec that its plan makes of the codecs in that table.
-/

namespace RecordWire

theorem mem_foldl_distinct {names found : List String} {name : String} :
    name ∈ names.foldl (fun ns n => if ns.contains n then ns else ns ++ [n]) found ↔
      name ∈ found ∨ name ∈ names := by
  induction names generalizing found with
  | nil => simp
  | cons n names ih =>
    rw [List.foldl_cons, ih, List.mem_cons]
    by_cases hn : found.contains n = true
    · have hmem : n ∈ found := by simpa using hn
      rw [if_pos hn]
      refine ⟨fun h => h.imp_right .inr, fun h => ?_⟩
      rcases or_assoc.mpr h with (h | rfl) | h
      exacts [.inl h, .inl hmem, .inr h]
    · rw [if_neg hn, List.mem_append, List.mem_singleton, or_assoc]

namespace Resolved

variable {s : Resolved} {outside : String → Codec}

theorem mem_foreignTypes {name : String} :
    name ∈ s.foreignTypes ↔
      ∃ r ∈ s.records, ∃ f ∈ r.fields, f.kind.foreignName? = some name := by
  rw [foreignTypes, mem_foldl_distinct]
  simp only [List.not_mem_nil, false_or, List.mem_filterMap, List.mem_flatMap]
  constructor
  · rintro ⟨f, ⟨r, hr, hf⟩, hname⟩
    exact ⟨r, hr, f, hf, hname⟩
  · rintro ⟨r, hr, f, hf, hname⟩
    exact ⟨f, ⟨r, hr, hf⟩, hname⟩

/-- The table after the records of a list. -/
def table (outside : String → Codec) (records : List ResolvedRecord) : List (String × Codec) :=
  records.foldl
    (fun known record => (record.name, record.codec (Element.codec outside known)) :: known) []

theorem table_snoc (records : List ResolvedRecord) (r : ResolvedRecord) :
    table outside (records ++ [r]) =
      (r.name, r.codec (Element.codec outside (table outside records))) ::
        table outside records := by
  rw [table, List.foldl_append]
  rfl

/-- The records that a record embeds were built before it. -/
theorem Sound.element_cases (hs : s.Sound) {done rest : List ResolvedRecord} {r : ResolvedRecord}
    (hsplit : s.recordsInDependencyOrder = done ++ r :: rest) {f : ResolvedField}
    (hf : f ∈ r.fields) :
    (∃ p, f.kind.element = .primitive p) ∨
      (∃ name ∈ s.foreignTypes, f.kind.element = .foreign name) ∨
        ∃ r' ∈ done, f.kind.element = .record r'.name := by
  cases he : f.kind.element with
  | primitive p => exact .inl ⟨p, rfl⟩
  | foreign name =>
    have hr : r ∈ s.records := by
      rw [← hs.mem_order, hsplit]
      simp
    have hname : f.kind.foreignName? = some name := by
      rw [FieldKind.foreignName?, he]
      rfl
    exact .inr (.inl ⟨name, mem_foreignTypes.mpr ⟨r, hr, f, hf, hname⟩, rfl⟩)
  | record name =>
    have hname : f.kind.recordName? = some name := by
      rw [FieldKind.recordName?, he]
      rfl
    obtain ⟨r', hr', rfl⟩ := hs.embedded done r rest hsplit f hf name hname
    exact .inr (.inr ⟨r', hr', rfl⟩)

section Induction

variable {P : Element → Codec → Prop} (primitive : ∀ p, P (.primitive p) (.scalar p))
  (foreign : ∀ name ∈ s.foreignTypes, P (.foreign name) (outside name))
include primitive foreign

/-- A record finds the codecs of its elements. -/
theorem Sound.element_induction (hs : s.Sound) {done rest : List ResolvedRecord}
    {r : ResolvedRecord} (hsplit : s.recordsInDependencyOrder = done ++ r :: rest)
    (hdone : ∀ r' ∈ done,
      ∃ c, (table outside done).lookup r'.name = some c ∧ P (.record r'.name) c)
    {f : ResolvedField} (hf : f ∈ r.fields) :
    P f.kind.element (Element.codec outside (table outside done) f.kind.element) := by
  rcases hs.element_cases hsplit hf with ⟨p, he⟩ | ⟨name, hname, he⟩ | ⟨r', hr', he⟩
  · rw [he]
    exact primitive p
  · rw [he]
    exact foreign name hname
  · obtain ⟨c, hc, hP⟩ := hdone r' hr'
    rw [he, Element.codec, hc]
    exact hP

/-- A property that holds of every primitive codec and every foreign codec, and passes from the
elements of a record to the record, holds of the codec of every record. -/
theorem Sound.codec_induction (hs : s.Sound)
    (record : ∀ r ∈ s.records, ∀ codecs : Element → Codec,
      (∀ p, codecs (.primitive p) = .scalar p) →
      (∀ f ∈ r.fields, P f.kind.element (codecs f.kind.element)) →
      P (.record r.name) (r.codec codecs))
    {r : ResolvedRecord} (hr : r ∈ s.records) :
    ∃ c, s.codec? outside r.name = some c ∧ P (.record r.name) c := by
  have hall : ∀ done rest, s.recordsInDependencyOrder = done ++ rest → ∀ r ∈ done,
      ∃ c, (table outside done).lookup r.name = some c ∧ P (.record r.name) c := by
    intro done
    induction done using List.reverseRecOn with
    | nil => simp
    | append_singleton done r ih =>
      intro rest hsplit r' hr'
      rw [List.append_assoc] at hsplit
      have hdone := ih _ hsplit
      rw [table_snoc, List.lookup_cons]
      rcases List.mem_append.mp hr' with hr' | hr'
      · -- A later record never hides an earlier one, since no two share a name.
        have hne : (r'.name == r.name) = false := by
          have hd := hs.nodup_order
          rw [hsplit, List.map_append, List.nodup_append] at hd
          exact beq_eq_false_iff_ne.mpr (hd.2.2 _ (List.mem_map_of_mem hr') _ (by simp))
        rw [hne]
        exact hdone r' hr'
      · obtain rfl := List.mem_singleton.mp hr'
        have hmem : r' ∈ s.records := by
          rw [← hs.mem_order, hsplit]
          simp
        rw [beq_self_eq_true]
        exact ⟨_, rfl, record r' hmem _ (fun _ => rfl) fun f hf =>
          hs.element_induction primitive foreign hsplit hdone hf⟩
  exact hall _ [] (List.append_nil _).symm r ((hs.mem_order r).mpr hr)

end Induction

/-! ## The whole table -/

/-- A record that is not among the later ones keeps the codec it was given. -/
theorem lookup_table_append (records : List ResolvedRecord) {later : List ResolvedRecord}
    {name : String} (h : name ∉ later.map (·.name)) :
    (table outside (records ++ later)).lookup name = (table outside records).lookup name := by
  induction later using List.reverseRecOn with
  | nil => rw [List.append_nil]
  | append_singleton later r ih =>
    simp only [List.map_append, List.mem_append, not_or, List.map_singleton,
      List.mem_singleton] at h
    rw [← List.append_assoc, table_snoc, List.lookup_cons, beq_eq_false_iff_ne.mpr h.2]
    exact ih h.1

/-- The codec of an element when all records are built. -/
def elementCodec (s : Resolved) (outside : String → Codec) : Element → Codec :=
  Element.codec outside (s.codecs outside)

variable {r : ResolvedRecord}

theorem Sound.lookup_codecs (hs : s.Sound) (hr : r ∈ s.records) :
    (s.codecs outside).lookup r.name = some (r.codec (s.elementCodec outside)) := by
  obtain ⟨done, rest, hsplit⟩ := List.append_of_mem ((hs.mem_order r).mpr hr)
  have hd := hs.nodup_order
  rw [hsplit, List.map_append, List.map_cons, List.nodup_append, List.nodup_cons] at hd
  obtain ⟨-, ⟨hrest, -⟩, hdone⟩ := hd
  have htable : s.codecs outside = table outside (done ++ r :: rest) := by
    rw [← hsplit]
    rfl
  -- What the record found when it was built is what stands in the whole table.
  have hcodecs : ∀ f ∈ r.fields, Element.codec outside (table outside done) f.kind.element =
      s.elementCodec outside f.kind.element := by
    intro f hf
    rcases hs.element_cases hsplit hf with ⟨p, he⟩ | ⟨name, -, he⟩ | ⟨r', hr', he⟩
    · rw [he]
      rfl
    · rw [he]
      rfl
    · have hlater : r'.name ∉ (r :: rest).map (·.name) := by
        intro hmem
        exact hdone _ (List.mem_map_of_mem hr') _ hmem rfl
      rw [he, elementCodec, Element.codec, Element.codec, htable, lookup_table_append done hlater]
  rw [htable, List.append_cons, lookup_table_append _ hrest, table_snoc, List.lookup_cons_self,
    ResolvedRecord.codec_congr hcodecs]

theorem Sound.elementCodec_record (hs : s.Sound) (hr : r ∈ s.records) :
    s.elementCodec outside (.record r.name) = r.codec (s.elementCodec outside) := by
  rw [elementCodec, Element.codec, hs.lookup_codecs hr]
  rfl

theorem Sound.codec?_eq (hs : s.Sound) (hr : r ∈ s.records) :
    s.codec? outside r.name = some (s.elementCodec outside (.record r.name)) := by
  rw [codec?, hs.lookup_codecs hr, hs.elementCodec_record hr]

/-- Record `a` has a field, an array or a sequence of the record `b`. -/
def Embeds (s : Resolved) (a b : ResolvedRecord) : Prop :=
  b ∈ s.records ∧ ∃ f ∈ a.fields, f.kind.recordName? = some b.name

theorem Sound.field_cases (hs : s.Sound) (hr : r ∈ s.records) {f : ResolvedField}
    (hf : f ∈ r.fields) :
    (∃ p, f.kind.element = .primitive p) ∨
      (∃ name ∈ s.foreignTypes, f.kind.element = .foreign name) ∨
        ∃ r', s.Embeds r r' ∧ f.kind.element = .record r'.name := by
  obtain ⟨done, rest, hsplit⟩ := List.append_of_mem ((hs.mem_order r).mpr hr)
  refine (hs.element_cases hsplit hf).imp_right (Or.imp_right ?_)
  rintro ⟨r', hr', he⟩
  have hmem : r' ∈ s.records := by
    rw [← hs.mem_order, hsplit]
    exact List.mem_append_left _ hr'
  exact ⟨r', ⟨hmem, f, hf, Element.recordName?_eq_some.mpr he⟩, he⟩

theorem Sound.embeds_of_recordName? (hs : s.Sound) (hr : r ∈ s.records) {f : ResolvedField}
    (hf : f ∈ r.fields) {name : String} (hname : f.kind.recordName? = some name) :
    ∃ r', s.Embeds r r' ∧ r'.name = name := by
  have he : f.kind.element = .record name := Element.recordName?_eq_some.mp hname
  rcases hs.field_cases hr hf with ⟨p, hp⟩ | ⟨other, -, ho⟩ | ⟨r', hr', hr⟩
  · cases he.symm.trans hp
  · cases he.symm.trans ho
  · exact ⟨r', hr', Element.record.inj (hr.symm.trans he)⟩

section Elements

variable {P : Element → Prop} (primitive : ∀ p, P (.primitive p))
  (foreign : ∀ name ∈ s.foreignTypes, P (.foreign name))
  (record : ∀ r ∈ s.records, (∀ f ∈ r.fields, P f.kind.element) → P (.record r.name))
include primitive foreign record

/-- What passes from the elements of a record to the record holds of every record. -/
theorem Sound.record_induction (hs : s.Sound) (hr : r ∈ s.records) : P (.record r.name) := by
  have h : ∃ c, s.codec? (fun _ => .absent) r.name = some c ∧ P (.record r.name) :=
    hs.codec_induction (P := fun e _ => P e) primitive foreign
      (fun r hr _ _ hfields => record r hr hfields) hr
  obtain ⟨-, -, h⟩ := h
  exact h

theorem Sound.field_induction (hs : s.Sound) (hr : r ∈ s.records) :
    ∀ f ∈ r.fields, P f.kind.element := by
  intro f hf
  rcases hs.field_cases hr hf with ⟨p, he⟩ | ⟨name, hname, he⟩ | ⟨r', hr', he⟩
  · rw [he]
    exact primitive p
  · rw [he]
    exact foreign name hname
  · rw [he]
    exact hs.record_induction primitive foreign record hr'.1

end Elements

/-- What passes from the records that a record embeds to the record holds of every record. -/
theorem Sound.embeds_induction (hs : s.Sound) {P : ResolvedRecord → Prop}
    (step : ∀ r ∈ s.records, (∀ r', s.Embeds r r' → P r') → P r) (hr : r ∈ s.records) : P r := by
  have h : ∀ r' ∈ s.records, Element.record r.name = .record r'.name → P r' := by
    apply hs.record_induction
      (P := fun e => ∀ r' ∈ s.records, e = .record r'.name → P r') ?_ ?_ ?_ hr
    · intro p r' _ he
      cases he
    · intro name _ r' _ he
      cases he
    · intro r hr hfields r' hr' he
      have hname : r.name = r'.name := Element.record.inj he
      obtain rfl : r = r' := by
        have hfound := hs.getRecord?_eq_some.mpr ⟨hr, hname⟩
        exact Option.some.inj (hfound.symm.trans (hs.getRecord?_eq_some.mpr ⟨hr', rfl⟩))
      refine step r hr fun r' ⟨hr', f, hf, hname⟩ => hfields f hf r' hr' ?_
      exact Element.recordName?_eq_some.mp hname
  exact h r hr rfl

end Resolved
end RecordWire
