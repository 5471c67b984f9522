import RecordWire.Proofs.CodecTable
import RecordWire.Proofs.Values

/-!
Decoding into a value that was there before.  A sequence is resized and not replaced, so that old
elements are decoded into again; every part of them is overwritten, and nothing of them shows in the
outcome.  Nor does it show whether a record is stored without gaps, so that its fields are copied,
or not.
-/

namespace RecordWire

/-! ## Old values -/

section Overwriting

variable {codecs : Element → Codec}

theorem FieldKind.overwrites_of_parts {kind : FieldKind} {v : Value} (hv : kind.HasShape v)
    (h : ∀ u ∈ kind.parts v, (codecs kind.element).Overwrites u) : kind.Overwrites codecs v := by
  cases kind with
  | single e => exact h v (List.mem_singleton.mpr rfl)
  | array e n =>
    obtain ⟨items, rfl, hn⟩ := hv
    exact ⟨hn, h⟩
  | sequence e => exact h

/-- A record overwrites the values of its type if its elements overwrite those of theirs. -/
theorem ResolvedRecord.Coherent.overwrites {r : ResolvedRecord} (hr : r.Coherent)
    (hd : (r.fields.map (·.ident)).Nodup) {typed : Element → Value → Prop}
    (h : ∀ f ∈ r.fields, ∀ v, typed f.kind.element v → (codecs f.kind.element).Overwrites v)
    {fields : Fields} (ht : r.Typed typed fields) :
    (r.codec codecs).Overwrites (.record fields) := by
  intro reader
  -- The value is laid out field by field, as the walk over the record goes through it.
  have hfields : r.fields.map (fun f => (f.ident, fields.get f.ident)) = fields := by
    have h := Fields.map_get ht.names hd
    rwa [List.map_map] at h
  have ho : List.Forall₂ (fun f entry => entry.1 = f.ident ∧ f.kind.Overwrites codecs entry.2)
      r.fields (r.fields.map fun f => (f.ident, fields.get f.ident)) := by
    rw [List.forall₂_map_right_iff, List.forall₂_same]
    intro f hf
    have hparts : ∀ u ∈ f.kind.parts (fields.get f.ident),
        (codecs f.kind.element).Overwrites u := fun u hu => h f hf u (ht.parts f hf u hu)
    exact ⟨rfl, FieldKind.overwrites_of_parts (ht.shape f hf) hparts⟩
  rw [hfields] at ho
  rw [hr.attempt_eq codecs hd]
  exact hr.decodeInto_outcome codecs hd ho reader

end Overwriting

namespace Resolved

variable {s : Resolved} {outside : String → Codec} {values : String → Value → Prop}
  {r : ResolvedRecord}

theorem Sound.overwrites (hs : s.Sound) (hd : ∀ r ∈ s.records, (r.fields.map (·.ident)).Nodup)
    (ho : ∀ name ∈ s.foreignTypes, ∀ v, values name v → (outside name).Overwrites v)
    (hr : r ∈ s.records) :
    ∀ v, s.Typed values (.record r.name) v →
      (s.elementCodec outside (.record r.name)).Overwrites v := by
  apply hs.record_induction
    (P := fun e => ∀ v, s.Typed values e v → (s.elementCodec outside e).Overwrites v) ?_ ?_ ?_ hr
  · intro p v _
    exact Codec.scalar_overwrites p v
  · intro name hname v hv
    cases hv with
    | foreign hv => exact ho name hname v hv
  · intro r hr hfields v hv
    obtain ⟨fields, rfl, ht⟩ := typed_record (hs.getRecord?_eq_some.mpr ⟨hr, rfl⟩) hv
    rw [hs.elementCodec_record hr]
    exact (hs.coherent r hr).overwrites (hd r hr) hfields ht

end Resolved

/-! ## Codecs that decode alike -/

/-- Codecs that read the same from every reader, and that bound a sequence of them by the same
number of bytes. -/
structure Codec.Alike (c c' : Codec) : Prop where
  attempt_eq : c.attempt = c'.attempt
  minSize_eq : c.minSize = c'.minSize

section Alike

variable {codecs codecs' : Element → Codec}

theorem Codec.Alike.attemptEach_eq {c c' : Codec} (h : c.Alike c') (n : Nat) :
    c.attemptEach n = c'.attemptEach n := by
  induction n with
  | zero => rfl
  | succ n ih => rw [attemptEach, attemptEach, h.attempt_eq, ih]

theorem Element.attemptArray_congr {e : Element} (h : (codecs e).Alike (codecs' e)) (n : Nat) :
    e.attemptArray codecs n = e.attemptArray codecs' n := by
  cases e <;> simp only [attemptArray, h.attemptEach_eq]

theorem ResolvedField.attempt_congr {f : ResolvedField}
    (h : (codecs f.kind.element).Alike (codecs' f.kind.element)) (before : Value) :
    f.attempt codecs before = f.attempt codecs' before := by
  rw [attempt, attempt]
  cases hk : f.kind with
  | single e =>
    rw [hk] at h
    exact h.attempt_eq
  | array e n =>
    rw [hk, FieldKind.element] at h
    simp only [Element.attemptArray_congr h]
  | sequence e =>
    rw [hk, FieldKind.element] at h
    simp only [h.minSize_eq, h.attemptEach_eq]

theorem attemptFields_congr {fs : List ResolvedField}
    (h : ∀ f ∈ fs, (codecs f.kind.element).Alike (codecs' f.kind.element)) (before : Value) :
    attemptFields codecs before fs = attemptFields codecs' before fs := by
  induction fs generalizing before with
  | nil => rfl
  | cons f fs ih =>
    rw [List.forall_mem_cons] at h
    simp only [attemptFields, ResolvedField.attempt_congr h.1, ih h.2]

end Alike

/-! ## How a record is stored -/

/-- The record, stored without gaps or not. -/
def ResolvedRecord.relaid (packed : Bool) (r : ResolvedRecord) : ResolvedRecord :=
  { r with fixedLayout := packed }

namespace ResolvedRecord

variable {r : ResolvedRecord} {codecs codecs' : Element → Codec}

theorem Coherent.relaid (hr : r.Coherent) (packed : Bool) : (r.relaid packed).Coherent :=
  ⟨hr.nodup_snakeNames, hr.countField_eq⟩

/-- The walk over the fields does not ask how they are stored. -/
theorem Coherent.alike_relaid (hr : r.Coherent) (hd : (r.fields.map (·.ident)).Nodup)
    (h : ∀ f ∈ r.fields, (codecs f.kind.element).Alike (codecs' f.kind.element)) (packed : Bool) :
    (r.codec codecs).Alike ((r.relaid packed).codec codecs') where
  attempt_eq := by
    rw [hr.attempt_eq codecs hd, (hr.relaid packed).attempt_eq codecs' hd,
      attemptFields_congr h]
    rfl
  minSize_eq := minSize_congr fun f hf => (h f hf).minSize_eq

end ResolvedRecord

namespace Resolved

/-- The schema with every record stored as `packed` says. -/
def relaid (packed : ResolvedRecord → Bool) (s : Resolved) : Resolved :=
  { s with records := s.records.map fun r => r.relaid (packed r) }

variable {s : Resolved} {packed : ResolvedRecord → Bool} {outside : String → Codec}
  {values : String → Value → Prop} {r : ResolvedRecord}

theorem getRecord?_relaid (name : String) :
    (s.relaid packed).getRecord? name =
      (s.getRecord? name).map fun r => r.relaid (packed r) := by
  rw [getRecord?, getRecord?, Option.map_bind]
  refine congrArg _ (funext fun i => ?_)
  exact List.getElem?_map ..

theorem recordsInDependencyOrder_relaid :
    (s.relaid packed).recordsInDependencyOrder =
      s.recordsInDependencyOrder.map fun r => r.relaid (packed r) := by
  rw [recordsInDependencyOrder, recordsInDependencyOrder, List.map_filterMap]
  refine congrArg (fun f => List.filterMap f s.dependencyOrder) (funext fun i => ?_)
  exact List.getElem?_map ..

theorem Sound.relaid (hs : s.Sound) (packed : ResolvedRecord → Bool) :
    (s.relaid packed).Sound where
  coherent := by
    intro r' hr'
    obtain ⟨r, hr, rfl⟩ := List.mem_map.mp hr'
    exact (hs.coherent r hr).relaid _
  getRecord?_eq_some := by
    intro name r'
    rw [getRecord?_relaid, Option.map_eq_some_iff]
    constructor
    · rintro ⟨r, hr, rfl⟩
      rw [hs.getRecord?_eq_some] at hr
      exact ⟨List.mem_map_of_mem hr.1, hr.2⟩
    · rintro ⟨hr', hname⟩
      obtain ⟨r, hr, rfl⟩ := List.mem_map.mp hr'
      exact ⟨r, hs.getRecord?_eq_some.mpr ⟨hr, hname⟩, rfl⟩
  mem_order := by
    intro r'
    rw [recordsInDependencyOrder_relaid, List.mem_map]
    simp only [hs.mem_order]
    exact List.mem_map.symm
  nodup_order := by
    rw [recordsInDependencyOrder_relaid, List.map_map]
    exact hs.nodup_order
  embedded := by
    intro before r' after hsplit f hf name hname
    rw [recordsInDependencyOrder_relaid] at hsplit
    obtain ⟨before, last, horder, rfl, hlast⟩ := List.map_eq_append_iff.mp hsplit
    obtain ⟨r, after, rfl, rfl, rfl⟩ := List.map_eq_cons_iff.mp hlast
    obtain ⟨r', hr', hname⟩ := hs.embedded before r after horder f hf name hname
    exact ⟨_, List.mem_map_of_mem hr', hname⟩

/-- A value does not change its type when it is stored in another way. -/
theorem Typed.relaid {e : Element} {v : Value} (h : s.Typed values e v)
    (packed : ResolvedRecord → Bool) : (s.relaid packed).Typed values e v := by
  induction h with
  | primitive p bits => exact .primitive p bits
  | foreign hv => exact .foreign hv
  | @record name r fields hr names shape _ ih =>
    have hr' : (s.relaid packed).getRecord? name = some (r.relaid (packed r)) := by
      rw [getRecord?_relaid, hr]
      rfl
    exact .record hr' names shape ih

theorem foreignTypes_relaid : (s.relaid packed).foreignTypes = s.foreignTypes := by
  rw [foreignTypes, foreignTypes, relaid, List.flatMap_map]
  rfl

theorem Sound.alike_relaid (hs : s.Sound) (hd : ∀ r ∈ s.records, (r.fields.map (·.ident)).Nodup)
    (hr : r ∈ s.records) :
    (s.elementCodec outside (.record r.name)).Alike
      ((s.relaid packed).elementCodec outside (.record r.name)) := by
  apply hs.record_induction (P := fun e =>
    (s.elementCodec outside e).Alike ((s.relaid packed).elementCodec outside e)) ?_ ?_ ?_ hr
  · intro p
    exact ⟨rfl, rfl⟩
  · intro name _
    exact ⟨rfl, rfl⟩
  · intro r hr hfields
    have hcodec : (s.relaid packed).elementCodec outside (.record r.name) =
        (r.relaid (packed r)).codec ((s.relaid packed).elementCodec outside) :=
      (hs.relaid packed).elementCodec_record (List.mem_map_of_mem hr)
    rw [hs.elementCodec_record hr, hcodec]
    exact (hs.coherent r hr).alike_relaid (hd r hr) hfields _

end Resolved

/-! ## Timestamps -/

namespace Timestamp

theorem overwrites {v : Value} (hv : IsValue v) : codec.Overwrites v := by
  obtain ⟨secs, nanos, rfl⟩ := hv
  rw [codec_eq]
  have ht : record.Typed (fun _ _ => True) (ofParts secs nanos).fields :=
    ⟨rfl, forall_mem_pair.mpr ⟨trivial, trivial⟩, fun _ _ _ _ => trivial⟩
  apply coherent.overwrites nodup_idents ?_ ht
  intro f hf v _
  obtain ⟨-, p, hk⟩ := element_of_mem hf
  rw [hk]
  exact Codec.scalar_overwrites p v

end Timestamp

/-- For every accepted schema and every reader, decoding into one value of a record goes as decoding
into any other does, and as decoding into a new one: either all give the same value, or all fail
with the same error, and all leave the reader in the same place.  The same happens whichever records
are stored without gaps. -/
theorem decodeInto_outcome_eq {schema : Schema} {s : Resolved} {outside : String → Codec}
    {values : String → Value → Prop}
    (built : schema.Built) (accepted : schema.resolve.result = .ok s)
    (distinct : ∀ r ∈ s.records, (r.fields.map (·.ident)).Nodup)
    (lawful : ∀ name ∈ s.foreignTypes, ∀ v, values name v → (outside name).Overwrites v)
    {r : ResolvedRecord} (mem : r ∈ s.records) :
    ∃ c, s.codec? outside r.name = some c ∧
      ∀ a b, s.Typed values (.record r.name) a → s.Typed values (.record r.name) b → ∀ reader,
        (c.decodeInto a reader).outcome = (c.decodeInto b reader).outcome ∧
        (c.decodeInto a reader).outcome = (c.decode reader).outcome ∧
        ∀ packed, ∃ c', (s.relaid packed).codec? outside r.name = some c' ∧
          (c'.decodeInto a reader).outcome = (c.decodeInto a reader).outcome := by
  have hs := built.sound accepted
  have ho := hs.overwrites distinct lawful mem
  refine ⟨_, hs.codec?_eq mem, fun a b ha hb reader => ⟨?_, ho a ha reader, fun packed => ?_⟩⟩
  · rw [ho a ha reader, ho b hb reader]
  · have hmem : r.relaid (packed r) ∈ (s.relaid packed).records := List.mem_map_of_mem mem
    have hdistinct : ∀ r ∈ (s.relaid packed).records, (r.fields.map (·.ident)).Nodup :=
      List.forall_mem_map.mpr distinct
    have hlawful : ∀ name ∈ (s.relaid packed).foreignTypes, ∀ v, values name v →
        (outside name).Overwrites v := by
      rw [Resolved.foreignTypes_relaid]
      exact lawful
    have hc : (s.relaid packed).codec? outside r.name =
        some ((s.relaid packed).elementCodec outside (.record r.name)) :=
      (hs.relaid packed).codec?_eq (r := r.relaid (packed r)) hmem
    have ho' := (hs.relaid packed).overwrites hdistinct hlawful hmem a (ha.relaid packed)
    refine ⟨_, hc, ?_⟩
    rw [ho a ha reader, (hs.alike_relaid distinct mem).attempt_eq]
    exact ho' reader

namespace Sample

/-- A track with another fix and more notes, on the wire. -/
def otherBytes : List UInt8 :=
  [1, 0, 0, 0, 0, 0, 0, 0, 8, 0, 0, 0, 3, 0x68, 0x69, 0, 0, 0, 2, 0, 1, 0, 2]

def other : Value :=
  .record [("n", .scalar .int8 1),
    ("fixes", .list [.record [("taken", Timestamp.ofParts 8 3),
      ("tag", .list [.scalar .char 0x68, .scalar .char 0x69])]]),
    ("notes", .list [.scalar .uint16 1, .scalar .uint16 2])]

def reading (bytes : List UInt8) (position : Nat) : Reader :=
  { buffer := bytes, order := .bigEndian, position := position }

end Sample

/-- Nothing is left of the track that was there before, and a failure after its first fix is the
same as in a new one. -/
theorem track_overwritten :
    ∃ c c', Sample.resolved.codec? Sample.outside "Track" = some c ∧
      (Sample.resolved.relaid fun _ => true).codec? Sample.outside "Track" = some c' ∧
      (c.decodeInto (Sample.track 2) (Sample.reading Sample.otherBytes 0)).outcome =
        (.ok Sample.other, Sample.reading Sample.otherBytes 23) ∧
      (c'.decodeInto (Sample.track 2) (Sample.reading (Sample.otherBytes.take 18) 0)).outcome =
        (.error (.bufferTooShort 4 3), Sample.reading (Sample.otherBytes.take 18) 15) := by
  have mem : Sample.trackRecord ∈ Sample.resolved.records := by simp [Sample.records]
  have lawful : ∀ name ∈ Sample.resolved.foreignTypes, ∀ v, Timestamp.IsValue v →
      (Sample.outside name).Overwrites v :=
    fun _ _ _ => Timestamp.overwrites
  obtain ⟨c, hc, h⟩ :=
    decodeInto_outcome_eq Sample.built Sample.accepted Sample.distinct lawful mem
  obtain ⟨-, hwhole, -⟩ := h (Sample.track 2) (Sample.track 7) (Sample.track_typed 2)
    (Sample.track_typed 7) (Sample.reading Sample.otherBytes 0)
  obtain ⟨-, hcut, hpacked⟩ := h (Sample.track 2) (Sample.track 7) (Sample.track_typed 2)
    (Sample.track_typed 7) (Sample.reading (Sample.otherBytes.take 18) 0)
  obtain ⟨c', hc', hpacked⟩ := hpacked fun _ => true
  have hnew : (Sample.resolved.codec? Sample.outside "Track").map (fun c =>
      ((c.decode (Sample.reading Sample.otherBytes 0)).outcome,
        (c.decode (Sample.reading (Sample.otherBytes.take 18) 0)).outcome)) =
      some ((.ok Sample.other, Sample.reading Sample.otherBytes 23),
        (.error (.bufferTooShort 4 3), Sample.reading (Sample.otherBytes.take 18) 15)) :=
    rfl
  rw [show Sample.resolved.codec? Sample.outside "Track" = some c from hc, Option.map_some,
    Option.some.injEq, Prod.mk.injEq] at hnew
  exact ⟨c, c', hc, hc', hwhole.trans hnew.1, hpacked.trans (hcut.trans hnew.2)⟩

end RecordWire
